import Sistemas.Xv6.CallsUser
import Sistemas.Xv6.System

/-! # What a process reads and writes

A process that writes to its memory changes its own pages only, and what it reads depends on these
pages alone.
-/

namespace Sistemas.Xv6.Calls.System

open Vm
open Uvm
open Exec (UserPage)
open Sysfile (nfile)

variable {l : Layout} {tramp root va perm a : Nat} {fs gs : List Nat} {m m' : Mem} {M : Map}
  {s s' : State} {T T' : Fin nproc → Option Table} {t : Table} {p q : Fin nproc}
  {boot : Nat → Prop} {loose : List (Fin nfile)} {kend : Nat} {b : UInt8}

/-! ## Addresses -/

/-- Where a byte is, if the page is for the process and has the flag `perm`. -/
def place (M : Map) (va perm : Nat) : Option Nat :=
  (M (va / pgsize)).bind fun page =>
    if page.2.testBit 4 = true ∧ page.2.testBit perm = true then
      some (page.1 * pgsize + va % pgsize)
    else none

theorem place_page (there : place M va perm = some a) : ∃ page, M (va / pgsize) = some page ∧
    page.2.testBit 4 = true ∧ a = page.1 * pgsize + va % pgsize := by
  obtain ⟨page, mapped, eq⟩ := Option.bind_eq_some_iff.mp there
  split at eq
  next both => exact ⟨page, mapped, both.1, (Option.some.inj eq).symm⟩
  next => cases eq

theorem translate_eq (rep : Represents kend m root M fs) (small : perm < 10) :
    translate (root * pgsize) va perm m = place M va perm := by
  rw [translate]
  by_cases high : va ≥ maxva
  · have missing : M (va / pgsize) = none := by
      cases mapped : M (va / pgsize) with
      | none => rfl
      | some page =>
        have low := rep.user _ page mapped
        unfold maxva pgsize at *
        omega
    rw [if_pos high, place, missing]
    rfl
  · have first : vpn 1 va = va / pgsize / 512 := by rw [vpn_succ, vpn_zero]
    have index : px 0 va = va / pgsize % 512 := by rw [px_eq, vpn_zero]
    rw [if_neg high, walk_find rep.tree (Nat.not_le.mp high), first, index, place]
    cases here : tableAt m root 2 (va / pgsize / 512) with
    | none =>
      have missing : M (va / pgsize) = none := by
        rw [← rep.map, Vm.mapOf, pteOf_missing here]
        rfl
      rw [missing]
      rfl
    | some g =>
      dsimp only [Option.map_some]
      rw [load_pte here]
      cases isValid : valid (pteOf m root (va / pgsize)) with
      | false =>
        have missing : M (va / pgsize) = none := by
          rw [← rep.map, Vm.mapOf, isValid]
          rfl
        rw [missing, if_neg fun all => Bool.false_ne_true all.1]
        rfl
      | true =>
        have mapped := rep.mapOf isValid
        have frame := (rep.page _ _ mapped).1
        rw [mapped, Option.bind_some, flags_testBit (by decide), flags_testBit small,
          pte2pa_eq frame]
        exact if_congr ⟨fun all => all.2, fun both => ⟨rfl, both⟩⟩ rfl rfl

theorem sound_translate (sound : Sound l tramp boot s loose T fs) (here : T p = some t)
    (small : perm < 10) :
    translate (s.proc p).pagetable va perm s.mem = place t.map va perm := by
  rw [(sound.holds here).pagetable]
  exact translate_eq (sound.ok here).space.rep small

/-! ## Reading -/

/-- What is read is in a page of the process. -/
theorem place_pages (ok : t.Ok kend tramp m fs) (there : place t.map va perm = some a) :
    UserPage t.map t.size (a / pgsize) := by
  obtain ⟨page, mapped, isUser, rfl⟩ := place_page there
  refine ⟨_, page, Exec.ProcSpace.user_low ok mapped isUser, mapped, ?_⟩
  exact (Bytes.page_of (Nat.mod_lt va (by decide))).symm

theorem userLoad_untouched (sound : Sound l tramp boot s loose T fs)
    (sound' : Sound l tramp boot s' loose T' gs) (live : (s.proc q).state ≠ .UNUSED)
    (untouched : Untouched T T' s s' q) : userLoad s' q va = userLoad s q va := by
  obtain ⟨t, here, holds⟩ := sound.live live
  have here' := untouched.table.trans here
  have kept := untouched.kept.keeps
  rw [here] at kept
  rw [userLoad, userLoad, loadByte, loadByte, sound_translate sound here (by decide),
    sound_translate sound' here' (by decide)]
  cases there : place t.map va 1 with
  | none => rfl
  | some a =>
    have page := place_pages (sound.ok here) there
    exact congrArg some (kept a (.inr (Exec.ProcSpace.held_user (sound.ok here) page)))

/-! ## Writing -/

theorem userStore_spec (sound : Sound l tramp boot s [] T fs) (live : (s.proc p).state ≠ .UNUSED)
    (va : Nat) (b : UInt8) :
    Outcome l tramp boot T s p ((userStore s p va b).getD s) T fs ∧
      SamePages T T s ((userStore s p va b).getD s) p := by
  obtain ⟨t, here, holds⟩ := sound.live live
  rw [userStore, sound_translate sound here (by decide)]
  cases there : place t.map va 2 with
  | none => exact ⟨.refl sound p, .refl T s p⟩
  | some a =>
    have ok := sound.ok here
    have page := place_pages ok there
    have keeps : s.mem.bytes.Keeps pgsize (fun f => ¬ UserPage t.map t.size f)
        (Function.update s.mem.bytes a b) := by
      intro c out
      rw [Function.update_of_ne]
      rintro rfl
      exact out page
    have free : FreeList l.kend { s.mem with bytes := Function.update s.mem.bytes a b } fs :=
      sound.spaces.free.congr rfl (keeps.mono fun f mem => (Exec.ProcSpace.not_user ok).1 f mem)
    obtain ⟨sound', others, pages⟩ := sound.write here free
      (keeps.mono fun f out page => out (.inl page))
    exact ⟨⟨sound', rfl, fun q ne _ => .inl ⟨rfl, rfl, others q ne⟩⟩, rfl, pages⟩

end Sistemas.Xv6.Calls.System
