import Sistemas.Xv6.ExecLoad
import Sistemas.Xv6.VmCopyout

/-! # The stack of a new program

The strings are pushed from the top of the stack page down, and below them the array of their
addresses.  `need` says how many bytes that takes; `Placed` says where each string is.
-/

namespace Sistemas.Xv6.Calls.Exec

open Vm
open Vm.Copy (address copyout Stored copyout_spec address_of address_page)
open Uvm

variable {kend tramp frame root f v n k sz va len u : Nat} {fs gs hs : List Nat} {m m' m₀ : Mem}
  {M : Map} {argv : List Arg} {ustack : List Nat} {bytes bytes' : Bytes}

/-! ## What the process reads -/

def Reads (m : Mem) (M : Map) (va len : Nat) (bytes : Bytes) : Prop :=
  ∀ i < len, ∃ a, address M (va + i) = some a ∧ m.bytes a = bytes i

/-- Something is written elsewhere. -/
theorem Reads.keep {va' len' : Nat} (reads : Reads m M va len bytes)
    (space : Copy.Space kend m root M gs) (stored : Stored M va' len' bytes' m.bytes m'.bytes)
    (apart : va + len ≤ va' ∨ va' + len' ≤ va) : Reads m' M va len bytes := by
  intro i lt
  obtain ⟨a, isSome, eq⟩ := reads i lt
  refine ⟨a, isSome, ?_⟩
  rw [stored.rest a, eq]
  intro j lt' there
  have := space.injective isSome there
  omega

/-- The page that is given for the stack. -/
def StackPage (M : Map) (k : Nat) : Prop := ∃ f, M k = some (f, pteR ||| pteU ||| pteW ||| pteV)

theorem StackPage.address (stack : StackPage M k) (low : k * pgsize ≤ va)
    (high : va < (k + 1) * pgsize) : ∃ a, address M va = some a := by
  obtain ⟨f, mapped⟩ := stack
  have number : va / pgsize = k := Nat.div_eq_of_lt_le low high
  have isUser : (pteR ||| pteU ||| pteW ||| pteV).testBit 4 = true := by decide
  exact ⟨_, address_of (number ▸ mapped) isUser⟩

theorem copyout_page (building : Building kend tramp frame m₀ m root M sz fs gs)
    (stack : StackPage M k) (low : k * pgsize ≤ va) (high : va + len ≤ (k + 1) * pgsize)
    (kernel : Bytes) :
    ∃ m', copyout (root * pgsize) va 0 len kernel m = .ok (true, m') ∧
      Building kend tramp frame m₀ m' root M sz fs gs ∧
      Stored M va len kernel m.bytes m'.bytes ∧ Reads m' M va len kernel := by
  have here : ∀ i < len, ∃ a, address M (va + i) = some a := fun i lt =>
    stack.address (by omega) (by omega)
  obtain ⟨j, m', ran, reach, stored, space⟩ :=
    copyout_spec (ProcSpace.copy building.space) va 0 len kernel
  obtain rfl := reach.all_iff.mpr here
  simp only [Nat.zero_add] at stored
  rw [decide_eq_true rfl] at ran
  refine ⟨m', ran, building.write space.table.tree.free ?_, stored, ?_⟩
  · intro a out
    apply stored.rest
    intro i _ isSome
    obtain ⟨page, mapped, isUser, eq⟩ := address_page isSome
    exact out ⟨_, page, ProcSpace.user_low building.space mapped isUser, mapped, eq.symm⟩
  · intro i lt
    obtain ⟨a, isSome⟩ := here i lt
    exact ⟨a, isSome, stored.byte i lt a isSome⟩

/-! ## The room on the stack -/

def roundUp16 (u : Nat) : Nat := (u + 15) / 16 * 16

/-- The bytes that are used with the strings, if it were `u` before. -/
def used : Nat → List Arg → Nat
  | u, [] => u
  | u, arg :: argv => used (roundUp16 (u + (arg.chars.length + 1))) argv

/-- The bytes for the strings and the array. -/
def need (argv : List Arg) : Nat := roundUp16 (used 0 argv + (argv.length + 1) * 8)

theorem le_roundUp16 (u : Nat) : u ≤ roundUp16 u := by
  unfold roundUp16
  omega

theorem le_used (u : Nat) (argv : List Arg) : u ≤ used u argv := by
  induction argv generalizing u with
  | nil => exact le_rfl
  | cons arg argv ih =>
    have := le_roundUp16 (u + (arg.chars.length + 1))
    have := ih (roundUp16 (u + (arg.chars.length + 1)))
    rw [used]
    omega

theorem push_eq {top c : Nat} (aligned : top % 16 = 0) (le : u + c ≤ top) (lt : top < 2 ^ 64) :
    push (top - u) c = top - roundUp16 (u + c) := by
  have small : minus (top - u) c = top - u - c := by
    unfold minus
    omega
  rw [push, small]
  unfold roundUp16
  omega

/-- The strings are at these addresses, from `high` down to `low`. -/
def Placed (M : Map) (m : Mem) : List Arg → List Nat → (low high : Nat) → Prop
  | [], [], low, high => low = high
  | arg :: argv, a :: as, low, high =>
    a + (arg.chars.length + 1) ≤ high ∧ Reads m M a (arg.chars.length + 1) arg.bytes ∧
      Placed M m argv as low a
  | _, _, _, _ => False

/-- What the loop over the arguments does; above `top - u` nothing changes. -/
inductive Pushed (M : Map) (m m' : Mem) (top u : Nat) (argv : List Arg) (ustack : List Nat) :
    Option (Nat × List Nat) → Prop
  | done {as : List Nat} (fits : used u argv ≤ pgsize)
      (placed : Placed M m' argv as (top - used u argv) (top - u))
      (kept : ∀ va len bytes, top - u ≤ va → Reads m M va len bytes → Reads m' M va len bytes) :
      Pushed M m m' top u argv ustack (some (top - used u argv, ustack ++ as))
  | full (tooLong : pgsize < used u argv) : Pushed M m m' top u argv ustack none

theorem pushLoop_spec (building : Building kend tramp frame m₀ m root M sz fs gs)
    (stack : StackPage M k) (pos : 0 < k) (small : k < userPages) (le : u ≤ pgsize)
    (few : ustack.length + argv.length ≤ maxarg) :
    ∃ r m', pushLoop (root * pgsize) (k * pgsize) argv ((k + 1) * pgsize - u) ustack m =
        .ok (r, m') ∧ Building kend tramp frame m₀ m' root M sz fs gs ∧
      Pushed M m m' ((k + 1) * pgsize) u argv ustack r := by
  have bounds : 2 * pgsize ≤ (k + 1) * pgsize ∧ (k + 1) * pgsize < 2 ^ 64 ∧
      (k + 1) * pgsize % 16 = 0 ∧ k * pgsize = (k + 1) * pgsize - pgsize := by
    have limit : userPages = 67108862 := by decide
    unfold pgsize
    omega
  obtain ⟨two, bound, aligned, base⟩ := bounds
  induction argv generalizing u ustack m with
  | nil =>
    have done := @Pushed.done M m m ((k + 1) * pgsize) u [] ustack [] le rfl
      fun _ _ _ _ reads => reads
    rw [List.append_nil] at done
    exact ⟨_, m, rfl, building, done⟩
  | cons arg argv ih =>
    rw [List.length_cons] at few
    have short := arg.short
    have enough := le_roundUp16 (u + (arg.chars.length + 1))
    have most : roundUp16 (u + (arg.chars.length + 1)) ≤ 2 * pgsize := by
      unfold roundUp16 pgsize at *
      omega
    have pushed := push_eq (u := u) (c := arg.chars.length + 1) aligned (by omega) bound
    rw [pushLoop, if_neg (by omega), pushed]
    dsimp only
    generalize next : roundUp16 (u + (arg.chars.length + 1)) = u' at enough most
    by_cases tooLong : pgsize < u'
    · have below : (k + 1) * pgsize - u' < k * pgsize := by omega
      rw [if_pos below]
      refine ⟨none, m, rfl, building, .full ?_⟩
      rw [used, next]
      exact tooLong.trans_le (le_used u' argv)
    · obtain ⟨m₁, copied, building₁, stored, reads⟩ := @copyout_page kend tramp frame root k sz
        ((k + 1) * pgsize - u') (arg.chars.length + 1) fs gs m m₀ M building stack (by omega)
        (by omega) arg.bytes
      have few' : (ustack ++ [(k + 1) * pgsize - u']).length + argv.length ≤ maxarg := by
        rw [List.length_append, List.length_singleton]
        omega
      obtain ⟨r, m', ran, building', rest⟩ := ih building₁ (Nat.not_lt.mp tooLong) few'
      rw [if_neg (by omega), copied]
      refine ⟨r, m', ran, building', ?_⟩
      cases rest with
      | full tooLong => exact .full (by rwa [used, next])
      | @done as fits placed kept =>
        have total : used u (arg :: argv) = used u' argv := by rw [used, next]
        have done := @Pushed.done M m m' ((k + 1) * pgsize) u (arg :: argv) ustack
          (((k + 1) * pgsize - u') :: as) (total ▸ fits)
          ⟨by omega, kept _ _ _ le_rfl reads, total ▸ placed⟩ fun va len bytes low there =>
            kept va len bytes (by omega)
              (there.keep (ProcSpace.copy building.space) stored (.inr (by omega)))
        rw [total] at done
        rw [List.append_assoc]
        exact done

theorem Placed.length {as : List Nat} {low high : Nat} (placed : Placed M m argv as low high) :
    as.length = argv.length := by
  induction argv generalizing as high with
  | nil =>
    cases as with
    | nil => rfl
    | cons => exact placed.elim
  | cons arg argv ih =>
    cases as with
    | nil => exact placed.elim
    | cons a as => rw [List.length_cons, List.length_cons, ih placed.2.2]

/-- What `pushArgs` leaves in the stack page. -/
inductive Stacked (M : Map) (m' : Mem) (top : Nat) (argv : List Arg) : Option (Nat × Nat) → Prop
  | done {as : List Nat} {low : Nat} (fits : need argv ≤ pgsize)
      (placed : Placed M m' argv as low top)
      (below : top - need argv + (argv.length + 1) * 8 ≤ low)
      (array : Reads m' M (top - need argv) ((argv.length + 1) * 8) (wordBytes (as ++ [0]))) :
      Stacked M m' top argv (some (top - need argv, argv.length))
  | full (tooLong : pgsize < need argv) : Stacked M m' top argv none

theorem Placed.keep {as : List Nat} {low high : Nat} (placed : Placed M m argv as low high)
    (kept : ∀ va len bytes, low ≤ va → Reads m M va len bytes → Reads m' M va len bytes) :
    low ≤ high ∧ Placed M m' argv as low high := by
  induction argv generalizing as high with
  | nil =>
    cases as with
    | nil => exact ⟨le_of_eq placed, placed⟩
    | cons => exact placed.elim
  | cons arg argv ih =>
    cases as with
    | nil => exact placed.elim
    | cons a as =>
      obtain ⟨below, reads, rest⟩ := placed
      obtain ⟨le, rest'⟩ := ih rest
      exact ⟨by omega, below, kept a _ _ le reads, rest'⟩

theorem pushArgs_spec (building : Building kend tramp frame m₀ m root M sz fs gs)
    (stack : StackPage M k) (pos : 0 < k) (small : k < userPages) (few : argv.length < maxarg) :
    ∃ r m', pushArgs (root * pgsize) (k * pgsize) argv ((k + 1) * pgsize) m = .ok (r, m') ∧
      Building kend tramp frame m₀ m' root M sz fs gs ∧
      Stacked M m' ((k + 1) * pgsize) argv r := by
  have bounds : 2 * pgsize ≤ (k + 1) * pgsize ∧ (k + 1) * pgsize < 2 ^ 64 ∧
      (k + 1) * pgsize % 16 = 0 ∧ k * pgsize = (k + 1) * pgsize - pgsize := by
    have limit : userPages = 67108862 := by decide
    unfold pgsize
    omega
  obtain ⟨two, bound, aligned, base⟩ := bounds
  have few' : ([] : List Nat).length + argv.length ≤ maxarg := by
    rw [List.length_nil]
    omega
  obtain ⟨r, m₁, ran, building₁, pushed⟩ :=
    pushLoop_spec building stack pos small (Nat.zero_le pgsize) few'
  rw [Nat.sub_zero] at ran
  rw [pushArgs, ran]
  dsimp only [bind, Except.bind]
  have array : (argv.length + 1) * 8 ≤ pgsize := by
    unfold maxarg at few
    unfold pgsize
    omega
  have enough := le_roundUp16 (used 0 argv + (argv.length + 1) * 8)
  rw [← need] at enough
  cases pushed with
  | full tooLong => exact ⟨none, m₁, rfl, building₁, .full (by omega)⟩
  | @done as fits placed kept =>
    have length := placed.length
    have sp := push_eq (u := used 0 argv) (c := (argv.length + 1) * 8) aligned (by omega) bound
    rw [← need] at sp
    dsimp only
    rw [List.nil_append, length, sp]
    have most : need argv ≤ 2 * pgsize := by
      rw [need]
      unfold roundUp16 pgsize at *
      omega
    by_cases tooLong : pgsize < need argv
    · have below : (k + 1) * pgsize - need argv < k * pgsize := by omega
      rw [if_pos below]
      exact ⟨none, m₁, rfl, building₁, .full tooLong⟩
    · obtain ⟨m', copied, building', stored, reads⟩ := @copyout_page kend tramp frame root k sz
        ((k + 1) * pgsize - need argv) ((argv.length + 1) * 8) fs gs m₁ m₀ M building₁ stack
        (by omega) (by omega) (wordBytes (as ++ [0]))
      have room : (k + 1) * pgsize - need argv + (argv.length + 1) * 8 ≤
          (k + 1) * pgsize - used 0 argv := by omega
      obtain ⟨-, placed'⟩ := placed.keep fun va len bytes low there =>
        there.keep (ProcSpace.copy building₁.space) stored (.inr (by omega))
      rw [if_neg (by omega), copied]
      exact ⟨_, m', rfl, building', .done (by omega) placed' room reads⟩

end Sistemas.Xv6.Calls.Exec
