import Sistemas.Xv6.MkfsImage

/-! # The image that `mkfs` leaves

`Trusted` is what the kernel relies on.  `mkfs` checks neither the number of files nor, when
it rounds the size of the root directory up, that the last block of it exists: a directory
that fills its last block gets the size of one block more.
-/

namespace Sistemas.Xv6.Mkfs

open Sistemas.Ownership

variable {m m' : State} {inum : Nat} {din : Dinode}

/-! ## The number of inodes -/

namespace State

theorem mapDirect_freeinode {i : Fin 12} : (m.mapDirect din i).2.freeinode = m.freeinode := by
  unfold mapDirect
  split <;> rfl

theorem mapIndirect_freeinode : (m.mapIndirect din).2.freeinode = m.freeinode := by
  unfold mapIndirect
  split <;> rfl

theorem mapEntry_freeinode {j x : Nat} (eq : m.mapEntry din j = some (x, m')) :
    m'.freeinode = m.freeinode := by
  unfold mapEntry at eq
  obtain ⟨buf, -, eq⟩ := Option.bind_eq_some_iff.mp eq
  split at eq
  · cases eq
    rfl
  · cases eq
    rfl

theorem mapBlock_freeinode {fbn x : Nat} {din' : Dinode}
    (eq : m.mapBlock din fbn = some (x, din', m')) : m'.freeinode = m.freeinode := by
  unfold mapBlock at eq
  split at eq
  · simp only [Option.some.injEq, Prod.mk.injEq] at eq
    rw [← eq.2.2, mapDirect_freeinode]
  · have before : (m.mapIndirect din).2.freeinode = m.freeinode := mapIndirect_freeinode
    generalize m.mapIndirect din = result at eq before
    obtain ⟨din₁, m₁⟩ := result
    obtain ⟨⟨x₁, m₂⟩, entry, eq⟩ := Option.bind_eq_some_iff.mp eq
    cases eq
    rw [mapEntry_freeinode entry]
    exact before

theorem appendBlock_freeinode {off : Nat} {p : List UInt8} {din' : Dinode}
    (eq : m.appendBlock din off p = some (din', m')) : m'.freeinode = m.freeinode := by
  simp only [appendBlock] at eq
  split at eq
  · obtain ⟨⟨x, din₁, m₁⟩, mapping, eq⟩ := Option.bind_eq_some_iff.mp eq
    obtain ⟨buf, -, eq⟩ := Option.bind_eq_some_iff.mp eq
    cases eq
    have before := mapBlock_freeinode mapping
    exact before
  · cases eq

theorem appendLoop_freeinode {off off' : Nat} {p : List UInt8} {din' : Dinode}
    (eq : m.appendLoop din off p = some (din', off', m')) : m'.freeinode = m.freeinode := by
  induction left : p.length using Nat.strong_induction_on generalizing m din off p with
  | _ n ih =>
    rw [appendLoop] at eq
    split at eq
    · cases eq
      rfl
    · next nonempty =>
      have pos := room_pos off (List.length_pos_iff.mpr nonempty)
      obtain ⟨⟨din₁, m₁⟩, block, eq⟩ := Option.bind_eq_some_iff.mp eq
      have le : room off p.length ≤ p.length := min_le_left _ _
      rw [ih _ (by rw [List.length_drop]; omega) eq rfl, appendBlock_freeinode block]

theorem winode_freeinode (eq : m.winode inum din = some m') : m'.freeinode = m.freeinode := by
  unfold winode at eq
  obtain ⟨buf, -, eq⟩ := Option.bind_eq_some_iff.mp eq
  cases eq
  rfl

theorem iappend_freeinode {p : List UInt8} (eq : m.iappend inum p = some m') :
    m'.freeinode = m.freeinode := by
  unfold iappend at eq
  obtain ⟨din, -, eq⟩ := Option.bind_eq_some_iff.mp eq
  obtain ⟨⟨din', off', m₁⟩, loop, write⟩ := Option.bind_eq_some_iff.mp eq
  rw [winode_freeinode write, appendLoop_freeinode loop]

theorem ialloc_freeinode {type : Nat} (eq : m.ialloc type = some (inum, m')) :
    m'.freeinode = m.freeinode + 1 := by
  unfold ialloc at eq
  obtain ⟨m₁, write, eq⟩ := Option.bind_eq_some_iff.mp eq
  cases eq
  exact winode_freeinode write

end State

theorem copy_freeinode {contents : List Chunk} (eq : copy inum contents m = some m') :
    m'.freeinode = m.freeinode := by
  induction contents generalizing m with
  | nil =>
    cases eq
    rfl
  | cons chunk rest ih =>
    obtain ⟨m₁, append, eq⟩ := Option.bind_eq_some_iff.mp eq
    rw [ih eq, State.iappend_freeinode append]

/-- The steps of `addFile`. -/
theorem addFile_some {root : Nat} {input : Input} (eq : addFile root input m = some m') :
    ∃ contents inum m₁ m₂, m.ialloc tFile = some (inum, m₁) ∧
      m₁.iappend root (dirent inum (shortname (basename input.arg))) = some m₂ ∧
      copy inum contents m₂ = some m' := by
  simp only [addFile] at eq
  split at eq
  · cases eq
  · obtain ⟨contents, -, eq⟩ := Option.bind_eq_some_iff.mp eq
    obtain ⟨⟨inum, m₁⟩, alloc, eq⟩ := Option.bind_eq_some_iff.mp eq
    obtain ⟨m₂, append, eq⟩ := Option.bind_eq_some_iff.mp eq
    exact ⟨contents, inum, m₁, m₂, alloc, append, eq⟩

theorem addFiles_freeinode {root : Nat} {files : List Input}
    (eq : addFiles root files m = some m') : m'.freeinode = m.freeinode + files.length := by
  induction files generalizing m with
  | nil =>
    cases eq
    rfl
  | cons input rest ih =>
    obtain ⟨m₁, file, eq⟩ := Option.bind_eq_some_iff.mp eq
    obtain ⟨contents, inum, m₂, m₃, alloc, append, copied⟩ := addFile_some file
    rw [ih eq, copy_freeinode copied, State.iappend_freeinode append,
      State.ialloc_freeinode alloc, List.length_cons]
    omega

/-! ## The root directory -/

theorem wipe_eq (n : Nat) (blank : m.sector = fun _ => zeroes) :
    wipe n m = { m with sectors := max m.sectors n } := by
  induction n with
  | zero => simp [wipe]
  | succ n ih =>
    rw [wipe, ih]
    have same : Function.update (fun _ => zeroes) n zeroes = fun _ => zeroes :=
      Function.update_eq_self n (fun _ => zeroes)
    have more : max (max m.sectors n) (n + 1) = max m.sectors (n + 1) := by omega
    simp only [State.wsect, blank, same, more]

theorem format_eq : format =
    { sector := Function.update (fun _ => zeroes) 1 (sb.store zeroes), sectors := fssize,
      freeinode := 1, freeblock := nmeta } := by
  rw [format, wipe_eq _ rfl]
  rfl

theorem format_sector :
    format.sector = Function.update (fun _ => zeroes) 1 (sb.store zeroes) := by
  rw [format_eq]

theorem format_freeblock : format.freeblock = nmeta := by
  rw [format_eq]

theorem format_table : format.table = fun _ => .zero := by
  funext inum
  unfold State.table
  split
  · have ne : sb.iblock inum ≠ 1 := by
      rw [iblock_eq]
      omega
    rw [format_sector, Function.update_of_ne ne, Dinode.load_zeroes]
  · rfl

theorem format_held : held format.table format.sector = fun _ => 0 := by
  funext slot
  rw [format_table]
  cases slot with
  | direct inum i =>
    simp only [held, Dinode.direct, Dinode.zero]
    exact Vector.getElem_replicate _
  | indirect inum => rfl
  | entry inum j => rfl

theorem format_built : Built format := by
  have high : ∀ b, nmeta ≤ b → format.sector b = zeroes := by
    intro b le
    have ne : b ≠ 1 := by
      rw [nmeta_eq] at le
      omega
    rw [format_sector, Function.update_of_ne ne]
  have owned : Owned (fun _ => 0) format := by
    refine ⟨?_, ?_, ⟨?_, ?_, ?_⟩, ?_, ?_⟩
    · rw [format_eq]
    · rw [format_freeblock]
    · intro s t held
      exact absurd rfl held
    · intro b
      simp [format_freeblock]
    · intro s held
      exact absurd rfl held
    · rw [format_freeblock]
      exact high
    · rw [format_sector, Function.update_self]
  refine ⟨?_, ?_, ?_, ?_, ?_⟩
  · rw [format_held]
    exact owned
  · rw [format_held, format_table]
    refine ⟨?_, ?_, ?_⟩ <;> intros <;> simp [Dinode.zero, blocks, bsize]
  · rw [format_freeblock]
    decide
  · intro inum _
    rw [format_table]
  · intro inum use
    have lt := use.2
    rw [format_eq] at lt
    exact absurd use.1 (by simpa using lt)

theorem dirent_length (inum : Nat) (name : List UInt8) : (dirent inum name).length = 16 := by
  simp [dirent, dirsiz]

/-- The root directory has an entry for each inode, and one more. -/
structure Rooted (m : State) : Prop where
  built : Built m
  some_inode : 2 ≤ m.freeinode
  size : (m.table rootino).size = 16 * m.freeinode

theorem copy_built {contents : List Chunk} (built : Built m) (use : m.InUse inum)
    (lt : inum < ninodes) (ne : inum ≠ rootino) (eq : copy inum contents m = some m') :
    Built m' ∧ m'.table rootino = m.table rootino := by
  induction contents generalizing m with
  | nil =>
    cases eq
    exact ⟨built, rfl⟩
  | cons chunk rest ih =>
    obtain ⟨m₁, append, eq⟩ := Option.bind_eq_some_iff.mp eq
    have appended := iappend_built built use lt append
    have use₁ : m₁.InUse inum := by
      rw [State.InUse, appended.freeinode]
      exact use
    obtain ⟨built', same⟩ := ih appended.built use₁ eq
    exact ⟨built', same.trans (appended.frame _ ne.symm)⟩

theorem addFile_rooted {input : Input} (rooted : Rooted m) (lt : m.freeinode < ninodes)
    (eq : addFile rootino input m = some m') :
    Rooted m' ∧ m'.freeinode = m.freeinode + 1 := by
  obtain ⟨contents, inum, m₁, m₂, alloc, append, copied⟩ := addFile_some eq
  have two := rooted.some_inode
  have rootino_eq : rootino = 1 := rfl
  obtain ⟨built₁, inum_eq, next, empty, frame⟩ :=
    ialloc_built rooted.built lt (by omega) (by decide) (by decide) alloc
  have ne : inum ≠ rootino := by omega
  have useRoot : m₁.InUse rootino := ⟨by decide, by omega⟩
  have appended := iappend_built built₁ useRoot (by decide) append
  have use : m₂.InUse inum := ⟨by omega, by rw [appended.freeinode]; omega⟩
  obtain ⟨built', same⟩ := copy_built appended.built use (by omega) ne copied
  have count : m'.freeinode = m.freeinode + 1 := by
    rw [copy_freeinode copied, appended.freeinode, next]
  refine ⟨⟨built', by omega, ?_⟩, count⟩
  rw [same, appended.size, frame _ ne.symm, rooted.size, dirent_length]
  omega

theorem addFiles_rooted {files : List Input} (rooted : Rooted m)
    (few : m.freeinode + files.length ≤ ninodes) (eq : addFiles rootino files m = some m') :
    Rooted m' := by
  induction files generalizing m with
  | nil =>
    cases eq
    exact rooted
  | cons input rest ih =>
    rw [List.length_cons] at few
    obtain ⟨m₁, file, eq⟩ := Option.bind_eq_some_iff.mp eq
    obtain ⟨rooted₁, count⟩ := addFile_rooted rooted (by omega) file
    exact ih rooted₁ (by omega) eq

theorem makeRoot_rooted {root : Nat} (eq : makeRoot = some (root, m)) :
    root = rootino ∧ Rooted m ∧ m.freeinode = 2 := by
  unfold makeRoot at eq
  obtain ⟨⟨root₀, m₁⟩, alloc, eq⟩ := Option.bind_eq_some_iff.mp eq
  have one : format.freeinode = 1 := by rw [format_eq]
  obtain ⟨built₁, root_eq, next, empty, -⟩ :=
    ialloc_built format_built (by rw [one]; decide) (by rw [one]) (by decide) (by decide) alloc
  dsimp only at eq
  split at eq
  · obtain ⟨m₂, dot, eq⟩ := Option.bind_eq_some_iff.mp eq
    obtain ⟨m₃, dotdot, eq⟩ := Option.bind_eq_some_iff.mp eq
    cases eq
    have root_eq' : root = 1 := root_eq.trans one
    subst root_eq'
    have use₁ : m₁.InUse rootino := ⟨by decide, by rw [next, one]; decide⟩
    have first := iappend_built built₁ use₁ (by decide) dot
    have use₂ : m₂.InUse rootino := by
      rw [State.InUse, first.freeinode]
      exact use₁
    have second := iappend_built first.built use₂ (by decide) dotdot
    have count : m.freeinode = 2 := by rw [second.freeinode, first.freeinode, next, one]
    refine ⟨rfl, ⟨second.built, count.ge, ?_⟩, count⟩
    rw [second.size, first.size, dirent_length, dirent_length, count]
    have : (m₁.table rootino).size = 0 := empty
    omega
  · cases eq

/-! ## The kernel's view -/

/-- The inode that `ilock` reads. -/
def State.dinode (m : State) (inum : Nat) : Dinode :=
  Dinode.load (m.sector (sb.iblock inum)) (inum % ipb)

def State.bit (m : State) (b : Nat) : Bool := (m.sector (sb.bblock b)).bit (b % bpb)

/-- What the kernel relies on. -/
structure Trusted (m : State) : Prop where
  super : Superblock.load (m.sector 1) = sb
  inodes : ∀ inum, m.InUse inum →
    inum < sb.ninodes ∧ sb.inodestart ≤ sb.iblock inum ∧ sb.iblock inum < sb.bmapstart
  range : ∀ slot, m.InUse slot.inum → held m.dinode m.sector slot ≠ 0 →
    nmeta ≤ held m.dinode m.sector slot ∧ held m.dinode m.sector slot < sb.size
  once : ∀ s t, m.InUse s.inum → m.InUse t.inum → held m.dinode m.sector s ≠ 0 →
    held m.dinode m.sector s = held m.dinode m.sector t → s = t
  bitmap : ∀ b < sb.size, m.bit b = true ↔
    b < nmeta ∨ ∃ slot, m.InUse slot.inum ∧ held m.dinode m.sector slot ≠ 0 ∧
      held m.dinode m.sector slot = b
  mapped : ∀ inum, m.InUse inum → ∀ fbn < blocks (m.dinode inum).size,
    fbn < maxfile ∧ held m.dinode m.sector (.data inum fbn) ≠ 0

theorem held_dinode {slot : Slot} (lt : slot.inum < ninodes) :
    held m.dinode m.sector slot = held m.table m.sector slot := by
  have same : ∀ inum < ninodes, m.dinode inum = m.table inum := by
    intro inum lt
    rw [State.dinode, State.table, if_pos lt]
  cases slot with
  | direct inum i => simp only [held, same inum lt]
  | indirect inum => simp only [held, same inum lt]
  | entry inum j => simp only [held, same inum lt]

theorem bitmap_bit (used b : Nat) : (State.bitmap used).bit b = decide (b < used) := by
  induction used with
  | zero =>
    rw [State.bitmap]
    exact Bytes.bit_zero
  | succ used ih =>
    rw [State.bitmap, Bytes.bit_setBit, ih]
    by_cases here : b = used
    · simp [here]
    · have : b < used + 1 ↔ b < used := by omega
      simp [here, this]

/-- The end of `main`: `m` is the state before the root directory's size is fixed. -/
structure Finished (m m' : State) : Prop where
  before : Rooted m
  freeinode : m'.freeinode = m.freeinode
  table : m'.table = Function.update m.table rootino
    { m.table rootino with size := ((m.table rootino).size / bsize + 1) * bsize }
  held_eq : held m'.table m'.sector = held m.table m.sector
  super : m'.sector 1 = sb.store zeroes
  bitmap : m'.sector sb.bmapstart = State.bitmap m.freeblock

/-- Writing the bitmap changes no inode and no indirect block. -/
theorem balloc_finished {m₁ m₂ : State} (rooted : Rooted m) (few : m.freeinode ≤ ninodes)
    (fix : fixRoot rootino m = some m₁) (alloc : m₁.balloc m₁.freeblock = some m₂) :
    Finished m m₂ := by
  have lt : rootino < ninodes := by decide
  unfold fixRoot at fix
  obtain ⟨din, read, write⟩ := Option.bind_eq_some_iff.mp fix
  have din_eq := State.rinode_some lt read
  subst din_eq
  have small : ((m.table rootino).size / bsize + 1) * bsize < 256 ^ 4 := by
    rw [rooted.size]
    have : ninodes = 200 := rfl
    have : bsize = 1024 := rfl
    simp only [this]
    omega
  have stored := State.winode_some lt (State.table_fits.resize small) write
  have owned : Owned (holding m.table rootino
      { m.table rootino with size := ((m.table rootino).size / bsize + 1) * bsize } m) m := by
    rw [holding, held_size, Function.update_eq_self]
    exact rooted.built.owned
  have held₁ := held_stored owned stored lt rfl
  rw [holding, held_size, Function.update_eq_self] at held₁
  unfold State.balloc at alloc
  split at alloc
  · cases alloc
    have bmapstart_eq : sb.bmapstart = 45 := rfl
    have table₂ : (m₁.wsect sb.bmapstart (State.bitmap m₁.freeblock)).table = m₁.table := by
      funext inum
      unfold State.table
      split
      · next lt =>
        have ne : sb.iblock inum ≠ sb.bmapstart := by
          have : ninodes = 200 := rfl
          rw [iblock_eq, bmapstart_eq]
          omega
        rw [State.wsect_sector, Function.update_of_ne ne]
      · rfl
    refine ⟨rooted, stored.freeinode_eq, ?_, ?_, ?_, ?_⟩
    · rw [table₂, stored.table_eq]
    · rw [table₂, ← held₁]
      apply held_block_congr
      intro inum nonzero
      have owned₁ := rooted.built.owned
      rw [← held₁] at owned₁
      have range := owned₁.range (.indirect inum) nonzero
      simp only [held, nmeta_eq] at range
      rw [State.wsect_sector, Function.update_of_ne (by omega)]
    · rw [State.wsect_sector, Function.update_of_ne (by omega), stored.sector_eq 1 (by decide)]
      exact rooted.built.owned.super
    · rw [State.wsect_sector, Function.update_self, stored.freeblock_eq]
  · cases alloc

/-- The steps of `main`. -/
theorem main_some {files : List Input} (eq : main files = some m') :
    ∃ root m₁ m₂ m₃, makeRoot = some (root, m₁) ∧ addFiles root files m₁ = some m₂ ∧
      fixRoot root m₂ = some m₃ ∧ m₃.balloc m₃.freeblock = some m' := by
  unfold main at eq
  obtain ⟨⟨root, m₁⟩, made, eq⟩ := Option.bind_eq_some_iff.mp eq
  obtain ⟨m₂, added, eq⟩ := Option.bind_eq_some_iff.mp eq
  obtain ⟨m₃, fixed, eq⟩ := Option.bind_eq_some_iff.mp eq
  exact ⟨root, m₁, m₂, m₃, made, added, fixed, eq⟩

theorem main_freeinode {files : List Input} (eq : main files = some m') :
    m'.freeinode = files.length + 2 := by
  obtain ⟨root, m₁, m₂, m₃, made, added, fixed, alloc⟩ := main_some eq
  obtain ⟨-, -, two⟩ := makeRoot_rooted made
  have same : m₃.freeinode = m₂.freeinode := by
    unfold fixRoot at fixed
    obtain ⟨din, -, write⟩ := Option.bind_eq_some_iff.mp fixed
    exact State.winode_freeinode write
  have last : m'.freeinode = m₃.freeinode := by
    unfold State.balloc at alloc
    split at alloc
    · cases alloc
      rfl
    · cases alloc
  rw [last, same, addFiles_freeinode added, two, Nat.add_comm]

theorem main_finished {files : List Input} (few : files.length ≤ 198)
    (eq : main files = some m') : ∃ m, Finished m m' ∧ m.freeinode = files.length + 2 := by
  obtain ⟨root, m₁, m₂, m₃, made, added, fixed, alloc⟩ := main_some eq
  obtain ⟨rfl, rooted, two⟩ := makeRoot_rooted made
  have ninodes_eq : ninodes = 200 := rfl
  have count := addFiles_freeinode added
  have rooted₂ := addFiles_rooted rooted (by omega) added
  exact ⟨m₂, balloc_finished rooted₂ (by omega) fixed alloc, by omega⟩

namespace Finished

variable (finished : Finished m m')

include finished

theorem inUse (few : m.freeinode ≤ ninodes) (use : m'.InUse inum) : inum < ninodes := by
  have := use.2
  rw [finished.freeinode] at this
  omega

/-- What the inodes in use hold in the image is what they held before. -/
theorem held_inUse (few : m.freeinode ≤ ninodes) {slot : Slot} (use : m'.InUse slot.inum) :
    held m'.dinode m'.sector slot = held m.table m.sector slot := by
  rw [held_dinode (finished.inUse few use), finished.held_eq]

/-- Inodes that hold blocks are in use. -/
theorem inUse_of_held {slot : Slot} (nonzero : held m.table m.sector slot ≠ 0) :
    m'.InUse slot.inum := by
  by_contra notUsed
  rw [State.InUse, finished.freeinode] at notUsed
  have empty := finished.before.built.unused _ notUsed
  apply nonzero
  cases slot with
  | direct inum i =>
    simp only [Slot.inum] at empty
    simp only [held, empty, Dinode.direct, Dinode.zero]
    exact Vector.getElem_replicate _
  | indirect inum =>
    simp only [Slot.inum] at empty
    rw [held, empty]
    rfl
  | entry inum j =>
    simp only [Slot.inum] at empty
    exact held_entry_empty (by rw [empty]; rfl) j

theorem root_blocks : blocks (m'.table rootino).size = 16 * m.freeinode / bsize + 1 := by
  rw [finished.table, Function.update_self]
  simp only [finished.before.size, blocks]
  have : bsize = 1024 := rfl
  simp only [this]
  omega

theorem trusted (few : m.freeinode ≤ ninodes) (whole : m.freeinode % 64 ≠ 0) : Trusted m' := by
  have ninodes_eq : ninodes = 200 := rfl
  have bsize_eq : bsize = 1024 := rfl
  have size_eq : sb.size = fssize := rfl
  have built := finished.before.built
  have owned := built.owned
  refine ⟨?_, ?_, ?_, ?_, ?_, ?_⟩
  · rw [finished.super]
    exact Superblock.load_store (by decide)
  · intro inum use
    have lt := finished.inUse few use
    have bmapstart_eq : sb.bmapstart = 45 := rfl
    refine ⟨lt, Nat.le_add_left _ _, ?_⟩
    rw [iblock_eq, bmapstart_eq]
    omega
  · intro slot use nonzero
    rw [finished.held_inUse few use] at nonzero ⊢
    have := owned.range slot nonzero
    have := built.room
    omega
  · intro s t useS useT nonzero same
    rw [finished.held_inUse few useS] at nonzero same
    rw [finished.held_inUse few useT] at same
    exact owned.own.once s t nonzero same
  · intro b lt
    have small : b < bpb := lt.trans_le (by decide)
    have block : sb.bblock b = sb.bmapstart := by
      rw [Superblock.bblock, Nat.div_eq_of_lt small, Nat.zero_add]
    rw [State.bit, block, finished.bitmap, bitmap_bit, Nat.mod_eq_of_lt small,
      decide_eq_true_iff, owned.own.used_iff b]
    constructor
    · rintro (isMeta | ⟨slot, nonzero, eq⟩)
      · exact .inl isMeta
      · have use := finished.inUse_of_held nonzero
        refine .inr ⟨slot, use, ?_, ?_⟩
        · rwa [finished.held_inUse few use]
        · rwa [finished.held_inUse few use]
    · rintro (isMeta | ⟨slot, use, nonzero, eq⟩)
      · exact .inl isMeta
      · rw [finished.held_inUse few use] at nonzero eq
        exact .inr ⟨slot, nonzero, eq⟩
  · intro inum use fbn lt
    have slotUse : m'.InUse (Slot.data inum fbn).inum := by
      rwa [Slot.inum_data]
    have table_eq : m'.dinode inum = m'.table inum := by
      rw [State.dinode, State.table, if_pos (finished.inUse few use)]
    rw [table_eq] at lt
    -- the size that is rounded up asks for no more blocks than there are
    have below : fbn < blocks (m.table inum).size := by
      by_cases root : inum = rootino
      · subst root
        rw [finished.root_blocks] at lt
        rw [finished.before.size, blocks]
        simp only [bsize_eq] at lt ⊢
        omega
      · rwa [finished.table, Function.update_of_ne root] at lt
    have inside : fbn < maxfile := below.trans_le (built.filled.small inum)
    refine ⟨inside, ?_⟩
    rw [finished.held_inUse few slotUse]
    exact (built.filled.data inum fbn inside).mpr below

/-- The root directory fills its last block, and the rounded size asks for one more. -/
theorem hole (few : m.freeinode ≤ ninodes) (whole : m.freeinode % 64 = 0) : ¬ Trusted m' := by
  intro trusted
  have ninodes_eq : ninodes = 200 := rfl
  have bsize_eq : bsize = 1024 := rfl
  have use : m'.InUse rootino := by
    have := finished.before.some_inode
    refine ⟨by decide, ?_⟩
    rw [finished.freeinode]
    exact this
  have slotUse : m'.InUse (Slot.data rootino (16 * m.freeinode / bsize)).inum := by
    rwa [Slot.inum_data]
  have table_eq : m'.dinode rootino = m'.table rootino := by
    rw [State.dinode, State.table, if_pos (by decide)]
  obtain ⟨inside, nonzero⟩ := trusted.mapped rootino use (16 * m.freeinode / bsize) (by
    rw [table_eq, finished.root_blocks]
    exact Nat.lt_succ_self _)
  rw [finished.held_inUse few slotUse] at nonzero
  have below := (finished.before.built.filled.data _ _ inside).mp nonzero
  rw [finished.before.size, blocks] at below
  simp only [bsize_eq] at below
  omega

end Finished

/-- An image with more than `NINODES` inodes. -/
theorem not_trusted_of_many (many : ninodes < m.freeinode) : ¬ Trusted m := by
  intro trusted
  exact absurd (trusted.inodes ninodes ⟨by decide, many⟩).1 (Nat.lt_irrefl _)

/-! ## Directories of empty files -/

section Short

theorem rootino_lt : rootino < ninodes := by
  decide

theorem rsect_ok {sec : Nat} (inside : sec < m.sectors) : m.rsect sec = some (m.sector sec) := by
  rw [State.rsect, if_pos inside]

theorem winode_ok (inside : sb.iblock inum < m.sectors) (din : Dinode) :
    ∃ m', m.winode inum din = some m' ∧ m'.freeblock = m.freeblock := by
  refine ⟨m.wsect (sb.iblock inum) (din.store (m.sector (sb.iblock inum)) (inum % ipb)), ?_, rfl⟩
  rw [State.winode, rsect_ok inside]
  rfl

theorem iblock_inside {holds : Slot → Nat} (owned : Owned holds m) (lt : inum < ninodes) :
    sb.iblock inum < m.sectors := by
  rw [owned.sectors]
  exact (iblock_lt lt).trans_le (by decide)

/-- A block that is held can be read, and so can the next one while there is space. -/
theorem mapDirect_inside {base : Nat → Dinode} {i : Fin 12} {din' : Dinode}
    (owned : Owned (holding base inum din m) m) (space : m.freeblock < fssize)
    (eq : m.mapDirect din i = (din', m')) :
    din'.direct i < m'.sectors ∧ m'.freeblock ≤ m.freeblock + 1 := by
  obtain ⟨owned', nonzero, -, how⟩ := mapDirect_owned owned eq
  have le : m'.freeblock ≤ m.freeblock + 1 := by
    obtain ⟨rfl, -⟩ | ⟨rfl, -⟩ := how
    · exact Nat.le_succ _
    · exact Nat.le_refl _
  have range := owned'.range _ nonzero
  simp only [holding, held, Function.update_self] at range
  rw [owned'.sectors]
  exact ⟨by omega, le⟩

theorem appendBlock_ok {base : Nat → Dinode} {off : Nat} {p : List UInt8}
    (owned : Owned (holding base inum din m) m) (space : m.freeblock < fssize)
    (direct : off / bsize < 12) :
    ∃ din' m', m.appendBlock din off p = some (din', m') ∧ m'.freeblock ≤ m.freeblock + 1 ∧
      m'.sectors = fssize := by
  generalize mapped : m.mapDirect din ⟨off / bsize, direct⟩ = result
  obtain ⟨din₁, m₁⟩ := result
  obtain ⟨inside, le⟩ := mapDirect_inside owned space mapped
  have sectors := (mapDirect_owned owned mapped).1.sectors
  have mapping : m.mapBlock din (off / bsize) =
      some (din₁.direct ⟨off / bsize, direct⟩, din₁, m₁) := by
    rw [State.mapBlock, dif_pos direct, mapped]
  have inFile : off / bsize < maxfile := direct.trans (by decide)
  have block : m.appendBlock din off p = some (din₁, m₁.wsect (din₁.direct ⟨off / bsize, direct⟩)
      ((m₁.sector (din₁.direct ⟨off / bsize, direct⟩)).splice (off - off / bsize * bsize)
        (State.room off p.length) fun i => p.getD i 0)) := by
    simp only [State.appendBlock, if_pos inFile]
    rw [mapping]
    simp only [Option.bind_eq_bind, Option.bind_some, rsect_ok inside]
  refine ⟨din₁, _, block, le, ?_⟩
  rw [State.wsect_sectors]
  omega

theorem iappend_ok {p : List UInt8} (built : Built m) (lt : inum < ninodes)
    (pos : 0 < p.length) (fits : (m.table inum).size % bsize + p.length ≤ bsize)
    (direct : (m.table inum).size / bsize < 12) (space : m.freeblock < fssize) :
    ∃ m', m.iappend inum p = some m' ∧ m'.freeblock ≤ m.freeblock + 1 := by
  have inside := iblock_inside built.owned lt
  have read : m.rinode inum = some (m.table inum) := by
    rw [State.rinode, rsect_ok inside, State.table, if_pos lt]
    rfl
  have owned : Owned (holding m.table inum (m.table inum) m) m := by
    rw [holding, Function.update_eq_self]
    exact built.owned
  obtain ⟨din', m₁, block, le, sectors⟩ :=
    appendBlock_ok (p := p) owned space direct
  have whole : State.room (m.table inum).size p.length = p.length := by
    have : bsize = 1024 := rfl
    unfold State.room
    simp only [this] at fits ⊢
    omega
  have nonempty : p ≠ [] := List.length_pos_iff.mp pos
  have loop : m.appendLoop (m.table inum) (m.table inum).size p =
      some (din', (m.table inum).size + p.length, m₁) := by
    rw [State.appendLoop, if_neg nonempty, block]
    simp only [Option.bind_eq_bind, Option.bind_some, whole, List.drop_length]
    rw [State.appendLoop, if_pos rfl]
  have inside₁ : sb.iblock inum < m₁.sectors := by
    rw [sectors, ← built.owned.sectors]
    exact inside
  obtain ⟨m', write, freeblock⟩ :=
    winode_ok inside₁ { din' with size := (m.table inum).size + p.length }
  refine ⟨m', ?_, by omega⟩
  rw [State.iappend, read]
  simp only [Option.bind_eq_bind, Option.bind_some, loop, write]

/-- A file of at most one block, which one `read` gives. -/
structure Input.Short (input : Input) : Prop where
  named : 47 ∉ basename input.arg
  read : ∃ contents, input.contents = some contents ∧ contents.length ≤ 1

theorem ialloc_ok (type : Nat) (inside : sb.iblock m.freeinode < m.sectors) :
    ∃ m', m.ialloc type = some (m.freeinode, m') ∧ m'.freeblock = m.freeblock := by
  obtain ⟨m', write, same⟩ := winode_ok (m := { m with freeinode := m.freeinode + 1 }) inside
    { Dinode.zero with type := type, nlink := 1 }
  refine ⟨m', ?_, same⟩
  rw [State.ialloc, write]
  rfl

theorem copy_ok {contents : List Chunk} (built : Built m) (lt : inum < ninodes)
    (fresh : (m.table inum).size = 0) (one : contents.length ≤ 1) (space : m.freeblock < fssize) :
    ∃ m', copy inum contents m = some m' ∧ m'.freeblock ≤ m.freeblock + 1 := by
  match contents, one with
  | [], _ => exact ⟨m, rfl, Nat.le_succ _⟩
  | [chunk], _ =>
    have fits := chunk.fits
    obtain ⟨m', append, le⟩ := iappend_ok built lt chunk.some_read
      (by rw [fresh, Nat.zero_mod]; omega) (by rw [fresh]; decide) space
    refine ⟨m', ?_, le⟩
    rw [copy, append]
    rfl

theorem addFile_ok {input : Input} (short : input.Short) (rooted : Rooted m)
    (lt : m.freeinode < ninodes) (space : m.freeblock + 2 ≤ fssize) :
    ∃ m', addFile rootino input m = some m' ∧ m'.freeblock ≤ m.freeblock + 2 := by
  have two := rooted.some_inode
  have ninodes_eq : ninodes = 200 := rfl
  have bsize_eq : bsize = 1024 := rfl
  obtain ⟨m₁, alloc, same⟩ := ialloc_ok tFile (iblock_inside rooted.built.owned lt)
  obtain ⟨built₁, -, next, fresh, frame⟩ :=
    ialloc_built rooted.built lt (by omega) (by decide) (by decide) alloc
  have rootino_eq : rootino = 1 := rfl
  have ne : rootino ≠ m.freeinode := by omega
  have size : (m₁.table rootino).size = 16 * m.freeinode := by
    rw [frame _ ne, rooted.size]
  have length := dirent_length m.freeinode (shortname (basename input.arg))
  obtain ⟨m₂, append, le⟩ := iappend_ok built₁ rootino_lt
    (p := dirent m.freeinode (shortname (basename input.arg))) (by omega)
    (by rw [size, length, bsize_eq]; omega) (by rw [size, bsize_eq]; omega) (by omega)
  have appended := iappend_built built₁ ⟨by decide, by rw [next]; omega⟩ rootino_lt append
  obtain ⟨contents, read, one⟩ := short.read
  obtain ⟨m', copied, le'⟩ := copy_ok appended.built lt
    (by rw [appended.frame _ ne.symm, fresh]) one (by omega)
  refine ⟨m', ?_, by omega⟩
  simp only [addFile]
  rw [if_neg short.named, read]
  simp only [Option.bind_eq_bind, Option.bind_some, alloc, append, copied]

theorem addFiles_ok {files : List Input} (short : ∀ input ∈ files, input.Short)
    (rooted : Rooted m) (few : m.freeinode + files.length ≤ ninodes)
    (space : m.freeblock + 2 * files.length ≤ fssize) :
    ∃ m', addFiles rootino files m = some m' ∧ m'.freeblock ≤ m.freeblock + 2 * files.length := by
  induction files generalizing m with
  | nil => exact ⟨m, rfl, Nat.le_refl _⟩
  | cons input rest ih =>
    rw [List.length_cons] at few space ⊢
    obtain ⟨m₁, added, le⟩ :=
      addFile_ok (short input List.mem_cons_self) rooted (by omega) (by omega)
    obtain ⟨rooted₁, next⟩ := addFile_rooted rooted (by omega) added
    obtain ⟨m', all, le'⟩ :=
      ih (fun other mem => short other (List.mem_cons_of_mem _ mem)) rooted₁ (by omega) (by omega)
    refine ⟨m', ?_, by omega⟩
    rw [addFiles, added]
    exact all

theorem makeRoot_ok : ∃ m, makeRoot = some (rootino, m) ∧ m.freeblock ≤ nmeta + 2 := by
  have one : format.freeinode = 1 := by rw [format_eq]
  have lt : format.freeinode < ninodes := by
    rw [one]
    decide
  have nmeta_eq := nmeta_eq
  have fssize_eq : fssize = 2000 := rfl
  obtain ⟨m₁, alloc, same⟩ := ialloc_ok tDir (iblock_inside format_built.owned lt)
  rw [format_freeblock] at same
  obtain ⟨built₁, -, next, empty, -⟩ :=
    ialloc_built format_built lt (by rw [one]) (by decide) (by decide) alloc
  rw [one] at alloc empty next
  have empty₁ : (m₁.table rootino).size = 0 := empty
  have length := dirent_length 1
  obtain ⟨m₂, dot, le⟩ := iappend_ok built₁ rootino_lt (p := dirent 1 (ascii "."))
    (by rw [length]; decide) (by rw [empty₁, length]; decide) (by rw [empty₁]; decide) (by omega)
  have use₁ : m₁.InUse rootino := ⟨by decide, by rw [next]; decide⟩
  have first := iappend_built built₁ use₁ (by decide) dot
  have size₂ : (m₂.table rootino).size = 16 := by rw [first.size, empty₁, length]
  obtain ⟨m₃, dotdot, le'⟩ := iappend_ok first.built rootino_lt (p := dirent 1 (ascii ".."))
    (by rw [length]; decide) (by rw [size₂, length]; decide) (by rw [size₂]; decide) (by omega)
  refine ⟨m₃, ?_, by omega⟩
  have dot' : m₁.iappend 1 (dirent 1 (ascii ".")) = some m₂ := dot
  have dotdot' : m₂.iappend 1 (dirent 1 (ascii "..")) = some m₃ := dotdot
  rw [makeRoot, alloc]
  simp only [Option.bind_eq_bind, Option.bind_some, dot', dotdot']
  rfl

/-- `mkfs` builds an image of so many short files. -/
theorem main_ok {files : List Input} (short : ∀ input ∈ files, input.Short)
    (few : files.length ≤ 198) : ∃ m, main files = some m := by
  have nmeta_eq := nmeta_eq
  have fssize_eq : fssize = 2000 := rfl
  have ninodes_eq : ninodes = 200 := rfl
  obtain ⟨m₁, made, le₁⟩ := makeRoot_ok
  obtain ⟨-, rooted, two⟩ := makeRoot_rooted made
  obtain ⟨m₂, added, le₂⟩ := addFiles_ok short rooted (by omega) (by omega)
  have rooted₂ := addFiles_rooted rooted (by omega) added
  have inside : sb.iblock rootino < m₂.sectors := iblock_inside rooted₂.built.owned (by decide)
  obtain ⟨m₃, write, same⟩ := winode_ok inside
    { m₂.table rootino with size := ((m₂.table rootino).size / bsize + 1) * bsize }
  have fixed : fixRoot rootino m₂ = some m₃ := by
    have read : m₂.rinode rootino = some (m₂.table rootino) := by
      rw [State.rinode, rsect_ok inside, State.table, if_pos (by decide)]
      rfl
    rw [fixRoot, read]
    exact write
  have bits : m₃.freeblock < bsize * 8 := by
    have : bsize = 1024 := rfl
    omega
  refine ⟨m₃.wsect sb.bmapstart (State.bitmap m₃.freeblock), ?_⟩
  rw [main, made]
  simp only [Option.bind_eq_bind, Option.bind_some, added, fixed, State.balloc, if_pos bits]

end Short

/-! ## The result -/

theorem main_trusted_iff (files : List Input) (m : State) (exit : main files = some m) :
    Trusted m ↔ files.length ≤ 198 ∧ (files.length + 2) % 64 ≠ 0 := by
  have count := main_freeinode exit
  have ninodes_eq : ninodes = 200 := rfl
  by_cases few : files.length ≤ 198
  · obtain ⟨m₀, finished, count₀⟩ := main_finished few exit
    have few₀ : m₀.freeinode ≤ ninodes := by omega
    rw [← count₀]
    constructor
    · intro trusted
      exact ⟨few, fun whole => finished.hole few₀ whole trusted⟩
    · rintro ⟨-, whole⟩
      exact finished.trusted few₀ whole
  · constructor
    · intro trusted
      exact absurd trusted (not_trusted_of_many (by omega))
    · rintro ⟨few', -⟩
      exact absurd few' few

def readme : Input where
  arg := ascii "README"
  contents := some [⟨ascii "xv6", by decide, by decide⟩]

def echo : Input where
  arg := ascii "user/_echo"
  contents := some [⟨ascii "hello", by decide, by decide⟩]

theorem main_trusted_echo : ∃ m, main [readme, echo] = some m ∧ Trusted m := by
  have short : ∀ input ∈ [readme, echo], input.Short := by
    simpa using ⟨⟨by decide, _, rfl, Nat.le_refl 1⟩, ⟨by decide, _, rfl, Nat.le_refl 1⟩⟩
  obtain ⟨m, exit⟩ := main_ok short (by decide)
  exact ⟨m, exit, (main_trusted_iff [readme, echo] m exit).mpr (by decide)⟩

def emptyFile : Input := { arg := ascii "user/_empty", contents := some [] }

theorem emptyFile_short (n : Nat) : ∀ input ∈ List.replicate n emptyFile, input.Short := by
  intro input mem
  rw [List.eq_of_mem_replicate mem]
  exact ⟨by decide, [], rfl, Nat.zero_le 1⟩

/-- 62 files fill the first block of the root directory. -/
theorem main_hole : ∃ m, main (List.replicate 62 emptyFile) = some m ∧ ¬ Trusted m := by
  obtain ⟨m, exit⟩ := main_ok (emptyFile_short 62) (by simp)
  obtain ⟨m₀, finished, count⟩ := main_finished (by simp) exit
  rw [List.length_replicate] at count
  exact ⟨m, exit, finished.hole (by rw [count]; decide) (by rw [count])⟩

end Sistemas.Xv6.Mkfs
