import Sistemas.Data.Partition
import Sistemas.Transition.Ends
import Sistemas.Xv6.Types
import Sistemas.Xv6.VmTotal

/-! # The memory of the kernel

When the kernel boots, `kinit` puts all pages on the free list; then `kvmmake` takes the pages of the
kernel's own page table and the stacks, and `virtio_disk_init` the rings.  A page that is not free
afterwards is one of these (`bootMemory_owned`).
-/

namespace Sistemas.Xv6.Vm

/-! ## `kinit` -/

/-- `for(; p + PGSIZE <= (char*)pa_end; p += PGSIZE)` -/
def freeRangeLoop (kend paEnd p : Nat) (m : Mem) : Except Panic Mem :=
  if _more : p + pgsize ≤ paEnd then do
    let m ← kfree kend p m
    freeRangeLoop kend paEnd (p + pgsize) m
  else .ok m
termination_by paEnd - p
decreasing_by
  unfold pgsize at *
  omega

def freerange (kend paStart paEnd : Nat) (m : Mem) : Except Panic Mem :=
  freeRangeLoop kend paEnd (pgRoundUp paStart) m

def kinit (kend : Nat) (m : Mem) : Except Panic Mem := freerange kend kend phystop m

/-! ## `kvminit` -/

/-- What stops the kernel while it boots. -/
inductive BootPanic
  | vm (e : Panic)
  | kvmmap
  -- in `proc_mapstacks`
  | kalloc
  | virtioDiskKalloc
  -- no panic of the source: `kvmmake` takes the first page for granted
  | nullTable
deriving DecidableEq

/-- `UART0` -/
def uart0 : Nat := 0x10000000

/-- `VIRTIO0` -/
def virtio0 : Nat := 0x10001000

/-- `PLIC` -/
def plic : Nat := 0x0c000000

/-- `KSTACK(p)` -/
def kstack (p : Nat) : Nat := trampoline - (p + 1) * 2 * pgsize

def kvmmap (kpgtbl va pa sz perm : Nat) (m : Mem) : Except BootPanic Mem :=
  match mappages kpgtbl va sz pa perm m with
  | .error e => .error (.vm e)
  | .ok (false, _) => .error .kvmmap
  | .ok (true, m) => .ok m

/-- `proc_mapstacks`, with `n` processes left; the pages of their stacks. -/
def procMapstacks (kpgtbl : Nat) : (n i : Nat) → Mem → Except BootPanic (List Nat × Mem)
  | 0, _, m => .ok ([], m)
  | n + 1, i, m =>
    match kalloc m with
    | none => .error .kalloc
    | some (pa, m) => do
      let m ← kvmmap kpgtbl (kstack i) pa pgsize (pteR ||| pteW) m
      let (kstacks, m) ← procMapstacks kpgtbl n (i + 1) m
      .ok (pa :: kstacks, m)

/-- `etext` is the end of the text of the kernel, `tramp` the page `trampoline` there. -/
def kvmmake (etext tramp : Nat) (m : Mem) : Except BootPanic (Nat × List Nat × Mem) :=
  match kalloc m with
  | none => .error .nullTable
  | some (kpgtbl, m) => do
    let m := m.memset kpgtbl 0
    -- uart registers
    let m ← kvmmap kpgtbl uart0 uart0 pgsize (pteR ||| pteW) m
    -- virtio mmio disk interface
    let m ← kvmmap kpgtbl virtio0 virtio0 pgsize (pteR ||| pteW) m
    let m ← kvmmap kpgtbl plic plic 0x400000 (pteR ||| pteW) m
    -- kernel text, then kernel data and the physical RAM
    let m ← kvmmap kpgtbl kernbase kernbase (etext - kernbase) (pteR ||| pteX) m
    let m ← kvmmap kpgtbl etext etext (phystop - etext) (pteR ||| pteW) m
    let m ← kvmmap kpgtbl trampoline tramp pgsize (pteR ||| pteX) m
    let (kstacks, m) ← procMapstacks kpgtbl nproc 0 m
    .ok (kpgtbl, kstacks, m)

/-! ## The rings of the disk -/

/-- `disk.desc = kalloc();`, and the same for `avail` and `used`; they are set to zero when there are
all three. -/
def allocRings (m : Mem) : Except BootPanic (List Nat × Mem) :=
  match kalloc m with
  | none => .error .virtioDiskKalloc
  | some (desc, m) =>
    match kalloc m with
    | none => .error .virtioDiskKalloc
    | some (avail, m) =>
      match kalloc m with
      | none => .error .virtioDiskKalloc
      | some (used, m) =>
        .ok ([desc, avail, used], ((m.memset desc 0).memset avail 0).memset used 0)

/-! ## Booting -/

/-- The memory of the kernel when the first process is made. -/
structure KernelMem where
  mem : Mem
  kernelPagetable : Nat
  kstacks : List Nat
  rings : List Nat

/-- The calls of `main` that allocate, up to `userinit`; `b` is the memory before, and
`kmem.freelist` is 0. -/
def bootMemory (kend etext tramp : Nat) (b : Bytes) : Except BootPanic KernelMem := do
  let m ← (kinit kend { bytes := b, freelist := 0 }).mapError .vm
  let (kpgtbl, kstacks, m) ← kvmmake etext tramp m
  let (rings, m) ← allocRings m
  .ok { mem := m, kernelPagetable := kpgtbl, kstacks := kstacks, rings := rings }

/-! ## What the linker sees to -/

/-- The text of the kernel with the trampoline is followed by its data. -/
structure Linked (kend etext tramp : Nat) : Prop where
  aligned : etext % pgsize = 0
  text : kernbase < etext
  tramp : tramp < etext
  data : etext < kend
  high : kend ≤ phystop

/-! ## Who has the pages -/

inductive BootOwner
  -- the page of the kernel's page table that is at this place in it
  | table (depth index : Nat)
  | kstack (i : Nat)
  | ring (i : Nat)

def BootOwns (k : KernelMem) : BootOwner → Nat → Prop
  | .table d n, f => d ≤ 2 ∧ tableAt k.mem (k.kernelPagetable / pgsize) d n = some f
  | .kstack i, f => k.kstacks[i]? = some (f * pgsize)
  | .ring i, f => k.rings[i]? = some (f * pgsize)

variable {kend root f g pa perm va u v n i etext tramp size : Nat} {fs gs taken : List Nat}
  {m m' : Mem} {b : Bytes} {maps maps' : Nat → Prop} {room : Prop}

/-! ## All pages are free -/

theorem freeRangeLoop_spec (start : kend ≤ v * pgsize) (free : FreeList kend m fs)
    (below : ∀ f, f ∈ fs ↔ InRam kend f ∧ f < v) :
    ∃ m' gs, freeRangeLoop kend phystop (v * pgsize) m = .ok m' ∧ FreeList kend m' gs ∧
      ∀ f, f ∈ gs ↔ InRam kend f := by
  have top : phystop = 0x88000 * pgsize := rfl
  induction left : 0x88000 - v generalizing v m fs with
  | zero =>
    refine ⟨m, fs, ?_, free, fun f => (below f).trans (and_iff_left_of_imp fun ram => ?_)⟩
    · rw [freeRangeLoop, dif_neg]
      rw [top, ← Nat.succ_mul]
      unfold pgsize
      omega
    · have high := ram.2
      rw [top] at high
      have := Nat.lt_of_mul_lt_mul_right high
      omega
  | succ n ih =>
    have more : v * pgsize + pgsize ≤ phystop := by
      rw [top, ← Nat.succ_mul]
      exact Nat.mul_le_mul_right _ (by omega)
    have ram : InRam kend v := by
      refine ⟨start, lt_of_lt_of_le ?_ more⟩
      unfold pgsize
      omega
    have new : v ∉ fs := fun mem => Nat.lt_irrefl v ((below v).mp mem).2
    obtain ⟨m₁, freed, free₁, -⟩ := kfree_ok free ram new
    rw [freeRangeLoop, dif_pos more, freed, ← Nat.succ_mul]
    refine ih (start.trans (Nat.mul_le_mul_right _ (Nat.le_succ v))) free₁ (fun f => ?_) (by omega)
    rw [List.mem_cons, below]
    constructor
    · rintro (rfl | ⟨ram', lt⟩)
      · exact ⟨ram, Nat.lt_succ_self f⟩
      · exact ⟨ram', Nat.lt_succ_of_lt lt⟩
    · rintro ⟨ram', lt⟩
      cases Nat.lt_succ_iff_lt_or_eq.mp lt with
      | inl lt => exact .inr ⟨ram', lt⟩
      | inr eq => exact .inl eq

theorem kinit_spec (high : kend ≤ phystop) (b : Bytes) :
    ∃ m fs, kinit kend { bytes := b, freelist := 0 } = .ok m ∧ FreeList kend m fs ∧
      ∀ f, f ∈ fs ↔ InRam kend f := by
  have small : kend + (pgsize - 1) < 2 ^ 64 := by
    unfold phystop kernbase at high
    unfold pgsize
    omega
  have empty : FreeList kend { bytes := b, freelist := 0 } [] :=
    ⟨rfl, List.nodup_nil, fun f mem => (by cases mem)⟩
  rw [kinit, freerange, pgRoundUp, Nat.mod_eq_of_lt small]
  refine freeRangeLoop_spec ?_ empty fun f => iff_of_false List.not_mem_nil ?_
  · unfold pgsize
    omega
  · rintro ⟨⟨ge, -⟩, lt⟩
    unfold pgsize at *
    omega

/-! ## Taking pages -/

/-- While the kernel boots, a page that is not free is a page of the kernel's table or one of
`taken`; `maps` holds where something is mapped. -/
structure Boots (kend : Nat) (m : Mem) (root : Nat) (fs taken : List Nat) (maps : Nat → Prop) :
    Prop where
  tree : Tree kend m root fs
  ram : ∀ f, InRam kend f ↔ f ∈ fs ∨ IsTable m root f ∨ f ∈ taken
  nodup : taken.Nodup
  apart : ∀ f ∈ taken, f ∉ fs ∧ ¬ IsTable m root f
  maps : ∀ v, valid (pteOf m root v) = true → maps v

theorem Boots.rearranged {taken' : List Nat} (boots : Boots kend m root fs taken maps)
    (same : taken.Perm taken') : Boots kend m root fs taken' maps where
  tree := boots.tree
  ram f := by rw [boots.ram f, same.mem_iff]
  nodup := same.nodup boots.nodup
  apart f mem := boots.apart f (same.mem_iff.mpr mem)
  maps := boots.maps

theorem Boots.edited {ptes : Nat → Nat} (boots : Boots kend m root fs taken maps)
    (edited : Edited kend m m' root fs gs ptes) (kept : ∀ g ∈ fs, g ∈ gs ∨ IsTable m' root g)
    (grown : ∀ v, valid (ptes v) = true → maps' v) : Boots kend m' root gs taken maps' where
  tree := edited.tree
  ram f := by
    rw [boots.ram f]
    constructor
    · rintro (free | ⟨d, n, le, here⟩ | mem)
      · exact (kept f free).imp_right .inl
      · exact .inr (.inl (isTable le (edited.table d n f le here)))
      · exact .inr (.inr mem)
    · rintro (free | table | mem)
      · exact .inl (edited.sub free)
      · cases edited.new f table with
        | inl old => exact .inr (.inl old)
        | inr free => exact .inl free
      · exact .inr (.inr mem)
  nodup := boots.nodup
  apart f mem := by
    obtain ⟨notFree, notTable⟩ := boots.apart f mem
    refine ⟨fun free => notFree (edited.sub free), fun table => ?_⟩
    cases edited.new f table with
    | inl old => exact notTable old
    | inr free => exact notFree free
  maps v isValid := grown v (by rwa [← edited.pte v])

theorem Boots.taking (low : 0 < kend) (boots : Boots kend m root (f :: fs) taken maps) :
    ∃ m', kalloc m = some (f * pgsize, m') ∧ Boots kend m' root fs (f :: taken) maps := by
  obtain ⟨m', found, free, keeps⟩ := kalloc_cons low boots.tree.free
  have notFree : ∀ g, IsTable m root g → g ∉ f :: fs := boots.tree.notFree
  obtain ⟨tree, nodes, ptes⟩ := boots.tree.congr free
    (keeps.mono fun g table eq => notFree g table (eq ▸ List.mem_cons_self))
    fun g table mem => notFree g table (List.mem_cons_of_mem f mem)
  have tables : ∀ g, IsTable m' root g ↔ IsTable m root g := fun g =>
    exists_congr fun d => exists_congr fun n => and_congr_right fun le => by rw [nodes d n le]
  have new : f ∉ fs := (List.nodup_cons.mp boots.tree.free.nodup).1
  refine ⟨m', found, tree, fun g => ?_, List.nodup_cons.mpr ⟨fun mem => ?_, boots.nodup⟩, ?_, ?_⟩
  · rw [boots.ram g, tables, List.mem_cons, List.mem_cons]
    tauto
  · exact (boots.apart f mem).1 List.mem_cons_self
  · intro g mem
    rw [tables]
    cases mem with
    | head => exact ⟨new, fun table => notFree f table List.mem_cons_self⟩
    | tail _ mem =>
      obtain ⟨notFree, notTable⟩ := boots.apart g mem
      exact ⟨fun free => notFree (List.mem_cons_of_mem f free), notTable⟩
  · intro v isValid
    exact boots.maps v (ptes v ▸ isValid)

/-- Something is written to a page that was taken. -/
theorem Boots.cleared (boots : Boots kend m root fs taken maps) (mem : f ∈ taken) (c : UInt8) :
    Boots kend (m.memset (f * pgsize) c) root fs taken maps := by
  obtain ⟨notFree, notTable⟩ := boots.apart f mem
  have keeps := keeps_memset m f c
  have free : FreeList kend (m.memset (f * pgsize) c) fs :=
    boots.tree.free.write notFree rfl keeps
  generalize m.memset (f * pgsize) c = m' at keeps free
  obtain ⟨tree, nodes, ptes⟩ := boots.tree.congr free
    (keeps.mono fun g table eq => notTable (eq ▸ table)) boots.tree.notFree
  have tables : ∀ g, IsTable m' root g ↔ IsTable m root g := fun g =>
    exists_congr fun d => exists_congr fun n => and_congr_right fun le => by rw [nodes d n le]
  refine ⟨tree, fun g => ?_, boots.nodup, fun g mem => ?_, fun v isValid => ?_⟩
  · rw [boots.ram g, tables]
  · rw [tables]
    exact boots.apart g mem
  · exact boots.maps v (ptes v ▸ isValid)

/-- The pages of the table that a call of `kvmmap` takes, at most. -/
def tables (v size : Nat) : Nat := 2 * (lastPage v size / 512 - v / 512) + 2

/-- `kvmmap` ends if there is room. -/
theorem kvmmap_ends {t : Nat} (low : 0 < kend) (boots : Boots kend m root fs taken maps)
    (pos : 0 < size) (fits : v * pgsize + size ≤ maxva)
    (new : ∀ w, v ≤ w → w ≤ lastPage v size → ¬ maps w) (paLt : pa < 2 ^ 64) (flags : perm < 1024)
    (cost : tables v size ≤ t) (enough : room → t < fs.length)
    (grown : ∀ w, maps w ∨ v ≤ w ∧ w ≤ lastPage v size → maps' w) :
    Ends (fun _ => ¬ room) (kvmmap (root * pgsize) (v * pgsize) pa size perm m) fun m' =>
      ∃ gs, Boots kend m' root gs taken maps' ∧ fs.length ≤ gs.length + t := by
  have unset : ∀ w, v ≤ w → w ≤ lastPage v size → valid (pteOf m root w) = false :=
    fun w ge le => Bool.eq_false_iff.mpr fun isValid => new w ge le (boots.maps w isValid)
  obtain ⟨done, m', gs, ran, ⟨n, le, -, edited⟩, kept, stuck, few⟩ :=
    mappages_ok low boots.tree pos fits unset paLt flags
  have few' : fs.length ≤ gs.length + t := by
    have first : missing m root v ≤ 2 := by
      rw [missing]
      split <;> omega
    rw [tables] at cost
    omega
  rw [kvmmap, ran]
  cases done with
  | false =>
    intro isRoom
    have more := enough isRoom
    rw [stuck rfl, List.length_nil] at few'
    omega
  | true =>
    refine ⟨gs, boots.edited edited kept fun w isValid => grown w ?_, few'⟩
    rw [mappedFirst] at isValid
    split at isValid
    next inside => exact .inr ⟨inside.1, by omega⟩
    next => exact .inl (boots.maps w isValid)

/-- A range at its own address, apart from what is mapped so far between pages `a` and `c`. -/
theorem kvmmap_direct {a c a' c' t : Nat} (low : 0 < kend)
    (boots : Boots kend m root fs taken fun w => a ≤ w ∧ w < c) (pos : 0 < size)
    (fits : v * pgsize + size ≤ maxva) (apart : lastPage v size < a ∨ c ≤ v)
    (lower : a' ≤ a ∧ a' ≤ v) (upper : c ≤ c' ∧ lastPage v size < c') (flags : perm < 1024)
    (cost : tables v size ≤ t) (enough : room → t < fs.length) :
    Ends (fun _ => ¬ room) (kvmmap (root * pgsize) (v * pgsize) (v * pgsize) size perm m) fun m' =>
      ∃ gs, Boots kend m' root gs taken (fun w => a' ≤ w ∧ w < c') ∧
        fs.length ≤ gs.length + t := by
  have small : v * pgsize < 2 ^ 64 := by
    unfold maxva at fits
    omega
  exact kvmmap_ends low boots pos fits (fun w ge le mapped => by omega) small flags cost enough
    fun w mapped => by omega

/-! ## The stacks -/

/-- The page number of `KSTACK(i)`. -/
def kstackPage (i : Nat) : Nat := trampoline / pgsize - (i + 1) * 2

theorem kstack_eq : kstack i = kstackPage i * pgsize := by
  rw [kstack, kstackPage, Nat.sub_mul, Nat.div_mul_cancel (by decide)]

theorem kstackPage_eq : kstackPage i = 0x3FFFFFF - (i + 1) * 2 := by
  have top : trampoline / pgsize = 0x3FFFFFF := by decide
  rw [kstackPage, top]

theorem procMapstacks_ends (low : 0 < kend) (boots : Boots kend m root fs taken maps)
    (sum : i + n = nproc)
    (new : ∀ v, maps v → v < 0x88000 ∨ kstackPage i < v) (enough : room → 3 * n < fs.length) :
    Ends (fun _ => ¬ room) (procMapstacks (root * pgsize) n i m) fun (pages, m') =>
      ∃ ks gs maps', pages = ks.map (· * pgsize) ∧ ks.length = n ∧
        Boots kend m' root gs (ks ++ taken) maps' ∧ fs.length ≤ gs.length + 3 * n := by
  induction n generalizing i m fs taken maps with
  | zero => exact ⟨[], fs, maps, rfl, rfl, boots, by omega⟩
  | succ n ih =>
    rw [procMapstacks]
    cases fs with
    | nil =>
      rw [kalloc_nil boots.tree.free]
      exact fun isRoom => absurd (enough isRoom) (Nat.not_lt_zero _)
    | cons f fs =>
      obtain ⟨m₁, found, boots₁⟩ := boots.taking low
      have inside : i < 64 := by
        unfold nproc at sum
        omega
      have ram := (boots.tree.free.inRam f List.mem_cons_self).lt
      have page : kstackPage i = 0x3FFFFFF - (i + 1) * 2 := kstackPage_eq
      have next : kstackPage (i + 1) = 0x3FFFFFF - (i + 1 + 1) * 2 := kstackPage_eq
      have last : lastPage (kstackPage i) pgsize = kstackPage i := rfl
      have cost : tables (kstackPage i) pgsize = 2 := by
        rw [tables, last, Nat.sub_self]
      have mapped : Ends (fun _ => ¬ room)
          (kvmmap (root * pgsize) (kstackPage i * pgsize) (f * pgsize) pgsize (pteR ||| pteW) m₁)
          fun m' => ∃ gs, Boots kend m' root gs (f :: taken)
            (fun v => v < 0x88000 ∨ kstackPage (i + 1) < v) ∧ fs.length ≤ gs.length + 2 := by
        refine kvmmap_ends low boots₁ (by decide) ?_ (fun w ge le isMapped => ?_) ?_ (by decide)
          cost.le (fun isRoom => ?_) fun w isMapped => ?_
        · rw [page]
          unfold pgsize maxva
          omega
        · have := new w isMapped
          omega
        · unfold pgsize
          omega
        · have := enough isRoom
          rw [List.length_cons] at this
          omega
        · cases isMapped with
          | inl before =>
            have := new w before
            omega
          | inr here => omega
      rw [found, kstack_eq]
      refine mapped.bind ?_
      rintro m₂ ⟨gs, boots₂, few⟩
      have rest := ih boots₂ (by omega) (fun v isMapped => isMapped) fun isRoom => by
        have := enough isRoom
        rw [List.length_cons] at this
        omega
      refine rest.bind ?_
      rintro ⟨pages, m'⟩ ⟨ks, hs, maps', rfl, length, boots', few'⟩
      refine ⟨f :: ks, hs, maps', rfl, ?_, boots'.rearranged List.perm_middle, ?_⟩
      · rw [List.length_cons, length]
      · rw [List.length_cons]
        omega

/-! ## The table of the kernel -/

theorem kvmmake_ends (low : 0 < kend) (linked : Linked kend etext tramp)
    (free : FreeList kend m fs) (all : ∀ f, f ∈ fs ↔ InRam kend f)
    (enough : room → 400 ≤ fs.length) :
    Ends (fun _ => ¬ room) (kvmmake etext tramp m) fun (kpgtbl, pages, m') =>
      ∃ root ks gs maps, kpgtbl = root * pgsize ∧ pages = ks.map (· * pgsize) ∧
        ks.length = nproc ∧ Boots kend m' root gs ks maps ∧ (room → 67 ≤ gs.length) := by
  obtain ⟨e, rfl⟩ : ∃ e, etext = e * pgsize :=
    ⟨etext / pgsize, (Nat.div_mul_cancel (Nat.dvd_of_mod_eq_zero linked.aligned)).symm⟩
  have above : 0x80000 < e := Nat.lt_of_mul_lt_mul_right (a := pgsize) linked.text
  have below : e < 0x88000 :=
    Nat.lt_of_mul_lt_mul_right (a := pgsize) (linked.data.trans_le linked.high)
  obtain ⟨trampSmall, textPos, textFits, textEnd, dataPos, dataFits, dataEnd⟩ :
      tramp < 2 ^ 64 ∧ 0 < e * pgsize - kernbase ∧
      0x80000 * pgsize + (e * pgsize - kernbase) ≤ maxva ∧
      lastPage 0x80000 (e * pgsize - kernbase) = e - 1 ∧ 0 < phystop - e * pgsize ∧
      e * pgsize + (phystop - e * pgsize) ≤ maxva ∧
      lastPage e (phystop - e * pgsize) = 0x87FFF := by
    have inside := linked.tramp
    unfold lastPage phystop pgsize kernbase maxva at *
    omega
  rw [kvmmake]
  generalize e * pgsize - kernbase = textSize at textPos textFits textEnd ⊢
  generalize phystop - e * pgsize = dataSize at dataPos dataFits dataEnd ⊢
  cases fs with
  | nil =>
    rw [kalloc_nil free]
    exact fun isRoom => absurd (enough isRoom) (Nat.not_lt_zero _)
  | cons r fs =>
    obtain ⟨m₁, found, tree, ptes, only, -⟩ := kalloc_table low free
    have many : room → 399 ≤ fs.length := fun isRoom => Nat.le_of_succ_le_succ (enough isRoom)
    rw [found]
    dsimp only
    generalize m₁.memset (r * pgsize) 0 = m₀ at tree ptes only
    have boots₀ : Boots kend m₀ r fs [] fun w => 0x10000 ≤ w ∧ w < 0x10000 := by
      refine ⟨tree, fun f => ?_, List.nodup_nil, fun f mem => (by cases mem), fun v isValid => ?_⟩
      · rw [← all, only, List.mem_cons]
        simp [or_comm]
      · rw [ptes v] at isValid
        cases isValid
    have uart : Ends (fun _ => ¬ room)
        (kvmmap (r * pgsize) uart0 uart0 pgsize (pteR ||| pteW) m₀) fun m' =>
          ∃ gs, Boots kend m' r gs [] (fun w => 0x10000 ≤ w ∧ w < 0x10001) ∧
            fs.length ≤ gs.length + 2 :=
      kvmmap_direct (v := 0x10000) low boots₀ (by decide) (by decide) (.inr le_rfl) (by decide)
        (by decide) (by decide) (by decide) fun isRoom => (many isRoom).trans' (by decide)
    refine uart.bind ?_
    rintro m₁ ⟨fs₁, boots₁, few₁⟩
    have virtio : Ends (fun _ => ¬ room)
        (kvmmap (r * pgsize) virtio0 virtio0 pgsize (pteR ||| pteW) m₁) fun m' =>
          ∃ gs, Boots kend m' r gs [] (fun w => 0x10000 ≤ w ∧ w < 0x10002) ∧
            fs₁.length ≤ gs.length + 2 :=
      kvmmap_direct (v := 0x10001) low boots₁ (by decide) (by decide) (.inr le_rfl) (by decide)
        (by decide) (by decide) (by decide) fun isRoom => by
          have := many isRoom
          omega
    refine virtio.bind ?_
    rintro m₂ ⟨fs₂, boots₂, few₂⟩
    have interrupts : Ends (fun _ => ¬ room)
        (kvmmap (r * pgsize) plic plic 0x400000 (pteR ||| pteW) m₂) fun m' =>
          ∃ gs, Boots kend m' r gs [] (fun w => 0xC000 ≤ w ∧ w < 0x10002) ∧
            fs₂.length ≤ gs.length + 4 :=
      kvmmap_direct (v := 0xC000) low boots₂ (by decide) (by decide) (.inl (by decide)) (by decide)
        (by decide) (by decide) (by decide) fun isRoom => by
          have := many isRoom
          omega
    refine interrupts.bind ?_
    rintro m₃ ⟨fs₃, boots₃, few₃⟩
    have textCost : tables 0x80000 textSize ≤ 128 := by
      rw [tables, textEnd]
      omega
    have text : Ends (fun _ => ¬ room)
        (kvmmap (r * pgsize) kernbase kernbase textSize (pteR ||| pteX) m₃) fun m' =>
          ∃ gs, Boots kend m' r gs [] (fun w => 0xC000 ≤ w ∧ w < e) ∧
            fs₃.length ≤ gs.length + tables 0x80000 textSize :=
      kvmmap_direct (v := 0x80000) low boots₃ textPos textFits (.inr (by decide)) (by decide)
        ⟨by omega, by omega⟩ (by decide) le_rfl fun isRoom => by
          have := many isRoom
          omega
    refine text.bind ?_
    rintro m₄ ⟨fs₄, boots₄, few₄⟩
    have cost : tables 0x80000 textSize + tables e dataSize ≤ 130 := by
      rw [tables, tables, textEnd, dataEnd]
      omega
    have data : Ends (fun _ => ¬ room)
        (kvmmap (r * pgsize) (e * pgsize) (e * pgsize) dataSize (pteR ||| pteW) m₄) fun m' =>
          ∃ gs, Boots kend m' r gs [] (fun w => 0xC000 ≤ w ∧ w < 0x88000) ∧
            fs₄.length ≤ gs.length + tables e dataSize :=
      kvmmap_direct low boots₄ dataPos dataFits (.inr le_rfl) ⟨le_rfl, by omega⟩
        ⟨by omega, by omega⟩ (by decide) le_rfl fun isRoom => by
          have := many isRoom
          omega
    refine data.bind ?_
    rintro m₅ ⟨fs₅, boots₅, few₅⟩
    have traps : Ends (fun _ => ¬ room)
        (kvmmap (r * pgsize) trampoline tramp pgsize (pteR ||| pteX) m₅) fun m' =>
          ∃ gs, Boots kend m' r gs [] (fun w => w < 0x88000 ∨ kstackPage 0 < w) ∧
            fs₅.length ≤ gs.length + 2 := by
      have last : lastPage 0x3FFFFFF pgsize = 0x3FFFFFF := rfl
      have first : kstackPage 0 = 0x3FFFFFD := rfl
      refine kvmmap_ends (v := 0x3FFFFFF) low boots₅ (by decide) (by decide)
        (fun w ge le mapped => ?_) trampSmall (by decide) (by decide) (fun isRoom => ?_)
        fun w mapped => ?_
      · omega
      · have := many isRoom
        omega
      · omega
    refine traps.bind ?_
    rintro m₆ ⟨fs₆, boots₆, few₆⟩
    have kstacks := procMapstacks_ends low boots₆ (n := nproc) (Nat.zero_add _)
      (fun v mapped => mapped) fun isRoom => by
        have := many isRoom
        unfold nproc
        omega
    refine kstacks.bind ?_
    rintro ⟨pages, m'⟩ ⟨ks, gs, maps, rfl, length, boots', few₇⟩
    rw [List.append_nil] at boots'
    refine ⟨r, ks, gs, maps, rfl, rfl, length, boots', fun isRoom => ?_⟩
    have := many isRoom
    unfold nproc at few₇
    omega

/-! ## The rings -/

/-- A ring is taken, or there is no room. -/
theorem Boots.ring (low : 0 < kend) (boots : Boots kend m root fs taken maps)
    (enough : room → n + 1 ≤ fs.length) : (kalloc m = none ∧ ¬ room) ∨
      ∃ f gs m', kalloc m = some (f * pgsize, m') ∧ Boots kend m' root gs (f :: taken) maps ∧
        (room → n ≤ gs.length) := by
  cases fs with
  | nil => exact .inl ⟨kalloc_nil boots.tree.free, fun isRoom => absurd (enough isRoom) (by simp)⟩
  | cons f fs =>
    obtain ⟨m', found, boots'⟩ := boots.taking low
    exact .inr ⟨f, fs, m', found, boots', fun isRoom => Nat.le_of_succ_le_succ (enough isRoom)⟩

theorem allocRings_ends (low : 0 < kend) (boots : Boots kend m root fs taken maps)
    (enough : room → n + 3 ≤ fs.length) :
    Ends (fun _ => ¬ room) (allocRings m) fun (pages, m') =>
      ∃ rs gs, pages = rs.map (· * pgsize) ∧ rs.length = 3 ∧
        Boots kend m' root gs (rs ++ taken) maps ∧ (room → n ≤ gs.length) := by
  rw [allocRings]
  obtain ⟨none, no⟩ | ⟨desc, fs₁, m₁, found₁, boots₁, enough₁⟩ := boots.ring low enough
  · rw [none]
    exact no
  obtain ⟨none, no⟩ | ⟨avail, fs₂, m₂, found₂, boots₂, enough₂⟩ := boots₁.ring low enough₁
  · rw [found₁]
    dsimp only
    rw [none]
    exact no
  obtain ⟨none, no⟩ | ⟨used, fs₃, m₃, found₃, boots₃, enough₃⟩ := boots₂.ring low enough₂
  · rw [found₁]
    dsimp only
    rw [found₂]
    dsimp only
    rw [none]
    exact no
  rw [found₁]
  dsimp only
  rw [found₂]
  dsimp only
  rw [found₃]
  refine ⟨[desc, avail, used], fs₃, rfl, rfl, ?_, enough₃⟩
  have zero := ((boots₃.cleared (f := desc) (by simp) 0).cleared (f := avail) (by simp) 0).cleared
    (f := used) (by simp) 0
  exact zero.rearranged ((List.reverse_perm [desc, avail, used]).append_right taken)

/-! ## All of it -/

theorem ram_length (space : kend + 512 * pgsize ≤ phystop)
    (all : ∀ f, f ∈ fs ↔ InRam kend f) : 400 ≤ fs.length := by
  have sub : List.range' (kend / pgsize + 1) 400 ⊆ fs := by
    intro f mem
    rw [List.mem_range'_1] at mem
    rw [all, InRam]
    unfold pgsize at *
    omega
  have le := ((List.nodup_range' _).subperm sub).length_le
  rwa [List.length_range'] at le

/-- Each page is free when the kernel has booted, or one of its owners has it. -/
structure Distributed (kend : Nat) (k : KernelMem) : Prop where
  kstacks : k.kstacks.length = nproc
  rings : k.rings.length = 3
  pages : ∃ fs, FreeList kend k.mem fs ∧ Partition (InRam kend) (· ∈ fs) (BootOwns k)

theorem getElem_page {ks : List Nat} :
    (ks.map (· * pgsize))[i]? = some (f * pgsize) ↔ ks[i]? = some f := by
  rw [List.getElem?_map, Option.map_eq_some_iff]
  constructor
  · rintro ⟨g, here, same⟩
    rwa [Nat.eq_of_mul_eq_mul_right (by decide) same] at here
  · exact fun here => ⟨f, here, rfl⟩

theorem Boots.distributed {ks rs : List Nat} (boots : Boots kend m root fs (rs ++ ks) maps)
    (kstacks : ks.length = nproc) (rings : rs.length = 3) :
    Distributed kend ⟨m, root * pgsize, ks.map (· * pgsize), rs.map (· * pgsize)⟩ := by
  generalize eq : KernelMem.mk m (root * pgsize) (ks.map (· * pgsize)) (rs.map (· * pgsize)) = k
  have table : ∀ d n f, BootOwns k (.table d n) f ↔ d ≤ 2 ∧ tableAt m root d n = some f := by
    intro d n f
    rw [← eq, BootOwns, Nat.mul_div_cancel _ (by decide)]
  have kstack : ∀ i f, BootOwns k (.kstack i) f ↔ ks[i]? = some f := fun i f => eq ▸ getElem_page
  have ring : ∀ i f, BootOwns k (.ring i) f ↔ rs[i]? = some f := fun i f => eq ▸ getElem_page
  obtain ⟨nodupR, nodupK, ne⟩ := List.nodup_append.mp boots.nodup
  have inTable : ∀ {d n f}, BootOwns k (.table d n) f → IsTable m root f :=
    fun own => ⟨_, _, (table _ _ _).mp own⟩
  have inStacks : ∀ {i f}, BootOwns k (.kstack i) f → f ∈ ks :=
    fun own => List.mem_of_getElem? ((kstack _ _).mp own)
  have inRings : ∀ {i f}, BootOwns k (.ring i) f → f ∈ rs :=
    fun own => List.mem_of_getElem? ((ring _ _).mp own)
  have taken : ∀ o f, BootOwns k o f → IsTable m root f ∨ f ∈ rs ++ ks := by
    intro o f own
    cases o with
    | table d n => exact .inl (inTable own)
    | kstack i => exact .inr (List.mem_append_right rs (inStacks own))
    | ring i => exact .inr (List.mem_append_left ks (inRings own))
  refine ⟨?_, ?_, fs, ?_, fun f => ?_, fun o f own => ?_, fun o o' f own own' => ?_⟩
  · rw [← eq, ← kstacks, List.length_map]
  · rw [← eq, ← rings, List.length_map]
  · exact eq ▸ boots.tree.free
  · rw [boots.ram f]
    constructor
    · rintro (free | ⟨d, n, here⟩ | mem)
      · exact .inl free
      · exact .inr ⟨.table d n, (table d n f).mpr here⟩
      · cases List.mem_append.mp mem with
        | inl mem =>
          obtain ⟨i, here⟩ := List.mem_iff_getElem?.mp mem
          exact .inr ⟨.ring i, (ring i f).mpr here⟩
        | inr mem =>
          obtain ⟨i, here⟩ := List.mem_iff_getElem?.mp mem
          exact .inr ⟨.kstack i, (kstack i f).mpr here⟩
    · rintro (free | ⟨o, own⟩)
      · exact .inl free
      · exact .inr (taken o f own)
  · cases taken o f own with
    | inl isTable => exact boots.tree.notFree f isTable
    | inr mem => exact (boots.apart f mem).1
  · have stackNot : f ∈ ks → ¬ IsTable m root f :=
      fun mem => (boots.apart f (List.mem_append_right rs mem)).2
    have ringNot : f ∈ rs → ¬ IsTable m root f :=
      fun mem => (boots.apart f (List.mem_append_left ks mem)).2
    cases o with
    | table d n =>
      cases o' with
      | table d' n' =>
        obtain ⟨le, here⟩ := (table d n f).mp own
        obtain ⟨le', here'⟩ := (table d' n' f).mp own'
        obtain ⟨rfl, rfl⟩ := boots.tree.apart d n d' n' f le le' here here'
        rfl
      | kstack i => exact absurd (inTable own) (stackNot (inStacks own'))
      | ring i => exact absurd (inTable own) (ringNot (inRings own'))
    | kstack i =>
      cases o' with
      | table d n => exact absurd (inTable own') (stackNot (inStacks own))
      | kstack j =>
        have here := (kstack i f).mp own
        obtain ⟨small, -⟩ := List.getElem?_eq_some_iff.mp here
        rw [(List.getElem?_inj small nodupK).mp (here.trans ((kstack j f).mp own').symm)]
      | ring j => exact absurd rfl (ne f (inRings own') f (inStacks own))
    | ring i =>
      cases o' with
      | table d n => exact absurd (inTable own') (ringNot (inRings own))
      | kstack j => exact absurd rfl (ne f (inRings own) f (inStacks own'))
      | ring j =>
        have here := (ring i f).mp own
        obtain ⟨small, -⟩ := List.getElem?_eq_some_iff.mp here
        rw [(List.getElem?_inj small nodupR).mp (here.trans ((ring j f).mp own').symm)]

/-- The kernel boots if there are enough pages, and then there are some left. -/
theorem bootMemory_owned (low : 0 < kend) (linked : Linked kend etext tramp) (b : Bytes) :
    Ends (fun _ => ¬ kend + 512 * pgsize ≤ phystop) (bootMemory kend etext tramp b) fun k =>
      Distributed kend k ∧ (kend + 512 * pgsize ≤ phystop →
        ∃ fs, FreeList kend k.mem fs ∧ 64 ≤ fs.length) := by
  obtain ⟨m, fs, initial, free, all⟩ := kinit_spec linked.high b
  rw [bootMemory, initial]
  refine (kvmmake_ends low linked free all fun space => ram_length space all).bind ?_
  rintro ⟨kpgtbl, kstacks, m₁⟩ ⟨root, ks, gs, maps, rfl, rfl, length, boots, enough⟩
  refine (allocRings_ends low boots enough).bind ?_
  rintro ⟨rings, m₂⟩ ⟨rs, hs, rfl, length', boots', left⟩
  exact ⟨boots'.distributed length length', fun space => ⟨hs, boots'.tree.free, left space⟩⟩

end Sistemas.Xv6.Vm
