import Sistemas.Xv6.CallsFiles
import Sistemas.Xv6.ExecLoad
import Sistemas.Xv6.VmCopyout

/-! # What is written to the memory of a process

The process writes to the pages that its table maps for it, and the kernel writes to its trapframe
besides; neither changes who owns a page, nor what another process sees.
-/

namespace Sistemas.Xv6.Calls

open Vm (Mem pgsize kalloc kfree InRam FreeList kernbase)
open Vm.Copy (address copyout copyout_spec address_page walkaddr)
open Uvm
open Exec (UserPage)
open Sysfile (nfile nofile)

variable {l : Layout} {tramp f g n : Nat} {fs gs hs : List Nat} {m m' : Mem} {s s' : State}
  {T : Fin nproc → Option Table} {t : Table} {p q np : Fin nproc} {boot : Nat → Prop}
  {loose loose' : List (Fin nfile)}

/-! ## The process and its pages -/

/-- What the fields of a process say of its pages. -/
structure Holds (proc : Proc) (t : Table) : Prop where
  trapframe : proc.trapframe = t.frame * pgsize
  pagetable : proc.pagetable = t.root * pgsize
  size : pagesOf proc.sz = t.size

theorem Sound.live (sound : Sound l tramp boot s loose T fs) (live : (s.proc p).state ≠ .UNUSED) :
    ∃ t, T p = some t ∧ Holds (s.proc p) t := by
  have here := sound.slot p
  generalize T p = r at here
  cases here with
  | unused state => exact absurd state live
  | used _ trapframe pagetable size => exact ⟨_, rfl, trapframe, pagetable, size⟩

theorem Sound.holds (sound : Sound l tramp boot s loose T fs) (here : T p = some t) :
    Holds (s.proc p) t := by
  have slot := sound.slot p
  rw [here] at slot
  cases slot with
  | used _ trapframe pagetable size => exact ⟨trapframe, pagetable, size⟩

theorem Sound.ok (sound : Sound l tramp boot s loose T fs) (here : T p = some t) :
    t.Ok l.kend tramp s.mem fs :=
  sound.spaces.table p t here

/-- The order of the references does not matter. -/
theorem Sound.perm (sound : Sound l tramp boot s loose T fs) (perm : loose.Perm loose') :
    Sound l tramp boot s loose' T fs := by
  refine sound.withFiles rfl sound.slot (fun _ => .rfl) ⟨fun j => ?_, sound.files.closed,
    sound.files.page, sound.files.once, sound.files.flag⟩
  rw [← perm.count_eq]
  exact sound.files.count j

/-! ## Another process -/

/-- Another process has its memory and its files as before. -/
structure Untouched (T T' : Fin nproc → Option Table) (s s' : State) (q : Fin nproc) : Prop where
  proc : s'.proc q = { s.proc q with parent := (s'.proc q).parent }
  table : T' q = T q
  kept : Kept s.mem s'.mem (T q)

/-- A process has the pages that it had. -/
structure SamePages (T T' : Fin nproc → Option Table) (s s' : State) (q : Fin nproc) : Prop where
  table : T' q = T q
  pages : ∀ f, Pages s'.mem (T q) f ↔ Pages s.mem (T q) f

/-- What is between two calls again, if a process has made one. -/
structure Outcome (l : Layout) (tramp : Nat) (boot : Nat → Prop) (T : Fin nproc → Option Table)
    (s : State) (p : Fin nproc) (s' : State) (T' : Fin nproc → Option Table) (gs : List Nat) :
    Prop where
  sound : Sound l tramp boot s' [] T' gs
  init : s'.initproc = s.initproc
  others : ∀ q, q ≠ p → (s.proc q).state ≠ .UNUSED →
    Untouched T T' s s' q ∨ (s.proc q).state = .ZOMBIE ∧ (s'.proc q).state = .UNUSED

theorem Outcome.runs {T' : Fin nproc → Option Table} (outcome : Outcome l tramp boot T s p s' T' gs)
    (ne : q ≠ p) (running : (s.proc q).state = .RUNNABLE) : Untouched T T' s s' q := by
  refine (outcome.others q ne (by rw [running]; decide)).resolve_right fun reaped => ?_
  rw [running] at reaped
  cases reaped.1

theorem SamePages.refl (T : Fin nproc → Option Table) (s : State) (q : Fin nproc) :
    SamePages T T s s q :=
  ⟨rfl, fun _ => .rfl⟩

theorem Untouched.refl (T : Fin nproc → Option Table) (s : State) (q : Fin nproc) :
    Untouched T T s s q :=
  ⟨rfl, rfl, .refl _ _⟩

theorem Outcome.refl (sound : Sound l tramp boot s [] T fs) (p : Fin nproc) :
    Outcome l tramp boot T s p s T fs :=
  ⟨sound, rfl, fun q _ _ => .inl (.refl T s q)⟩

/-! ## Writing -/

/-- The pages that are written for a process. -/
def Table.Data (t : Table) (f : Nat) : Prop := UserPage t.map t.size f ∨ f = t.frame

theorem Table.Ok.data (ok : t.Ok l.kend tramp m fs) (data : Table.Data t f) : t.Pages m f := by
  cases data with
  | inl page => exact .inr (Exec.ProcSpace.held_user ok page)
  | inr eq => exact .inl eq

/-- A table does not change if only the data does. -/
theorem Table.Ok.write (ok : t.Ok l.kend tramp m fs) (free : FreeList l.kend m' fs)
    (keeps : m.bytes.Keeps pgsize (fun f => ¬ Table.Data t f) m'.bytes) :
    t.Ok l.kend tramp m' fs ∧ ∀ f, t.Pages m' f ↔ t.Pages m f := by
  have notTable : ∀ f, Vm.IsTable m t.root f → ¬ Table.Data t f := by
    intro f table data
    cases data with
    | inl page => exact (Exec.ProcSpace.not_user ok).2 f table page
    | inr eq => exact (ok.space.rep.page _ _ ok.trapframe).2.2 (eq ▸ table)
  obtain ⟨space, tables, -⟩ := ok.space.elsewhere free (keeps.mono notTable)
    ok.space.rep.tree.notFree fun v page mapped => (ok.space.rep.page v page mapped).2.1
  exact ⟨⟨space, ok.trapframe, ok.trampoline⟩, fun f => or_congr_right (or_congr_left (tables f))⟩

theorem Sound.write (sound : Sound l tramp boot s loose T fs) (here : T p = some t)
    (free : FreeList l.kend m' fs)
    (keeps : s.mem.bytes.Keeps pgsize (fun f => ¬ Table.Data t f) m'.bytes) :
    Sound l tramp boot (s.setMem m') loose T fs ∧ (∀ q, q ≠ p → Kept s.mem m' (T q)) ∧
      ∀ f, Pages m' (T p) f ↔ Pages s.mem (T p) f := by
  have ok := sound.ok here
  obtain ⟨ok', pages⟩ := Table.Ok.write ok free keeps
  have step : Step l.kend s.mem m' fs fs (Pages s.mem (T p)) (Pages m' (T p)) := by
    rw [here]
    refine ⟨ok'.space.free, fun f => or_congr_right (pages f), fun f mine => ?_, ?_⟩
    · rw [Pages, pages] at mine
      exact sound.spaces.part.apart _ f (owns_some here mine)
    · exact keeps.mono fun f out data => out.2 (Table.Ok.data ok data)
  have moved := @Sound.step l tramp fs fs s (s.setMem m') T p boot loose (T p) sound step
    (fun t' eq => by
      rw [here] at eq
      cases eq
      exact ok') (sound.slot p) (fun _ _ => rfl) rfl rfl
  rw [Function.update_eq_self] at moved
  refine ⟨moved, fun q ne => sound.spaces.kept (o := some p) step fun eq => ne (Option.some.inj eq),
    fun f => ?_⟩
  rw [here]
  exact pages f

/-- What is copied out to a process. -/
theorem Sound.copyout (sound : Sound l tramp boot s loose T fs) (here : T p = some t)
    (va src len : Nat) (kernel : Bytes) :
    ∃ ok m', copyout (s.proc p).pagetable va src len kernel s.mem = .ok (ok, m') ∧
      Sound l tramp boot (s.setMem m') loose T fs ∧ (∀ q, q ≠ p → Kept s.mem m' (T q)) ∧
      s.mem.bytes.Keeps pgsize (fun f => ¬ UserPage t.map t.size f) m'.bytes ∧
      ∀ f, Pages m' (T p) f ↔ Pages s.mem (T p) f := by
  have ok := sound.ok here
  obtain ⟨k, m', ran, -, stored, space⟩ :=
    copyout_spec (Exec.ProcSpace.copy ok) va src len kernel
  have keeps : s.mem.bytes.Keeps pgsize (fun f => ¬ UserPage t.map t.size f) m'.bytes := by
    intro a out
    apply stored.rest
    intro i _ there
    obtain ⟨page, mapped, isUser, eq⟩ := address_page there
    exact out ⟨_, page, Exec.ProcSpace.user_low ok mapped isUser, mapped, eq.symm⟩
  rw [(sound.holds here).pagetable]
  obtain ⟨sound', others, pages⟩ := sound.write here space.table.tree.free
    (keeps.mono fun f out page => out (.inl page))
  exact ⟨_, m', ran, sound', others, keeps, pages⟩

end Sistemas.Xv6.Calls
