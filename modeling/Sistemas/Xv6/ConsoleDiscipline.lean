import Sistemas.Xv6.ConsoleLine

/-! # The console keeps the line discipline

* `Holds` — the ring with its three indices holds a queue and a line.
* `Simulates` — two devices that do the same, and the systems of their readers.
* `console_discipline` — what follows for the console.
-/

namespace Sistemas.Xv6.Console

open RingBuffer

variable {s : Cons} {t : Line} {q l cs : List UInt8} {c : UInt8} {target n : Nat}

theorem uints_pos : 0 < uints := by decide

theorem size_dvd : inputBufSize ∣ uints := by decide

theorem size_lt : inputBufSize < uints := by decide

theorem minus_eq_count (i j : Nat) : minus i j = count uints j i := rfl

/-- The characters from `r` on are those of the queue and then those of the line. -/
structure Holds (s : Cons) (t : Line) : Prop where
  r_lt : s.r < uints
  w_eq : s.w = (s.r + t.queue.length) % uints
  e_eq : s.e = (s.r + (t.queue ++ t.line).length) % uints
  fits : (t.queue ++ t.line).length ≤ inputBufSize
  cells : cells s.buf inputBufSize s.r (t.queue ++ t.line).length = t.queue ++ t.line

namespace Holds

theorem length_lt (holds : Holds s t) : (t.queue ++ t.line).length < uints :=
  Nat.lt_of_le_of_lt holds.fits size_lt

theorem used (holds : Holds s t) : minus s.e s.r = (t.queue ++ t.line).length := by
  rw [minus_eq_count, holds.e_eq, count_add holds.r_lt holds.length_lt]

theorem committed (holds : Holds s t) : minus s.w s.r = t.queue.length := by
  have lt := holds.length_lt
  rw [List.length_append] at lt
  rw [minus_eq_count, holds.w_eq, count_add holds.r_lt (by omega)]

/-- `cons.e--` -/
theorem erase (holds : Holds s { queue := q, line := l ++ [c] }) :
    s.get (decr s.e) = c ∧ Holds { s with e := decr s.e } { queue := q, line := l } := by
  have cells := holds.cells
  have fits := holds.fits
  have length : (q ++ (l ++ [c])).length = (q ++ l).length + 1 := by
    simp [← Nat.add_assoc]
  rw [length, cells_add, cells_one, ← List.append_assoc] at cells
  obtain ⟨before, last⟩ := List.append_inj cells (by simp [RingBuffer.cells])
  have back : decr s.e = (s.r + (q ++ l).length) % uints := by
    rw [decr, holds.e_eq, length, pred_add uints_pos]
  refine ⟨?_, holds.r_lt, holds.w_eq, back, ?_, before⟩
  swap
  · simp only at fits ⊢
    omega
  rw [Cons.get, back, Nat.mod_mod_of_dvd _ size_dvd]
  exact List.cons.inj last |>.1

/-- `cons.buf[cons.e++ % INPUT_BUF_SIZE] = c` -/
theorem store (holds : Holds s t) (room : (t.queue ++ t.line).length < inputBufSize) :
    Holds (s.store c) { queue := t.queue, line := t.line ++ [c] } := by
  have length : (t.queue ++ (t.line ++ [c])).length = (t.queue ++ t.line).length + 1 := by
    simp [← Nat.add_assoc]
  refine ⟨holds.r_lt, holds.w_eq, ?_, ?_, ?_⟩
  · rw [Cons.store, incr, holds.e_eq, Nat.mod_add_mod, length, Nat.add_assoc]
  · simp only [length]
    exact room
  · have place : s.e % inputBufSize = (s.r + (t.queue ++ t.line).length) % inputBufSize := by
      rw [holds.e_eq, Nat.mod_mod_of_dvd _ size_dvd]
    simp only [Cons.store, length]
    rw [cells_add, cells_one, place, cells_update room, holds.cells, Function.update_self,
      List.append_assoc]

/-- `cons.w = cons.e` -/
theorem commit (holds : Holds s t) :
    Holds { s with w := s.e } { queue := t.queue ++ t.line, line := [] } := by
  refine ⟨holds.r_lt, holds.e_eq, ?_, ?_, ?_⟩
  · rw [List.append_nil, holds.e_eq]
  · rw [List.append_nil]
    exact holds.fits
  · rw [List.append_nil]
    exact holds.cells

/-- `cons.r++` -/
theorem pop (holds : Holds s { queue := c :: q, line := l }) :
    s.get s.r = c ∧ Holds { s with r := incr s.r } { queue := q, line := l } := by
  have cells := holds.cells
  have fits := holds.fits
  have length : (c :: q ++ l).length = 1 + (q ++ l).length := by
    simp [Nat.add_comm]
  rw [length, cells_add, cells_one] at cells
  obtain ⟨first, rest⟩ := List.cons.inj cells
  refine ⟨first, Nat.mod_lt _ uints_pos, ?_, ?_, by simp at fits ⊢; omega, ?_⟩
  · have w := holds.w_eq
    rw [List.length_cons, Nat.add_comm q.length, ← Nat.add_assoc] at w
    rw [incr, Nat.mod_add_mod]
    exact w
  · have e := holds.e_eq
    rw [length, ← Nat.add_assoc] at e
    rw [incr, Nat.mod_add_mod]
    exact e
  · rw [incr, cells_mod size_dvd]
    exact rest

end Holds

/-! ## The two functions -/

/-- Two pieces that are the same but for the device. -/
structure Piece.Like {σ τ : Type} (R : σ → τ → Prop) (p : Piece σ) (p' : Piece τ) : Prop where
  state : R p.state p'.state
  n : p.n = p'.n
  bytes : p.bytes = p'.bytes
  returned : p.returned = p'.returned

section Simulation

variable {σ τ P : Type} [DecidableEq P] {D : Device σ} {D' : Device τ} {R : σ → τ → Prop}
  {a a' : Tty σ P} {b : Tty τ P} {p : Piece σ} {p' : Piece τ} {x : Reader}

structure Simulates (D : Device σ) (D' : Device τ) (R : σ → τ → Prop) : Prop where
  intr : ∀ {s t} c, R s t → R (D.intr c s).1 (D'.intr c t).1 ∧ (D.intr c s).2 = (D'.intr c t).2
  read : ∀ {s t} target n, R s t → Piece.Like R (D.read target n s) (D'.read target n t)
  room : ∀ {s t}, R s t → D.room s = D'.room t

structure Related (R : σ → τ → Prop) (a : Tty σ P) (b : Tty τ P) : Prop where
  device : R a.device b.device
  reader : a.reader = b.reader

theorem Piece.Like.after (like : Piece.Like R p p') : Tty.Reader.after x p = Tty.Reader.after x p' := by
  simp only [Tty.Reader.after, like.n, like.bytes, like.returned]

theorem Piece.Like.result (like : Piece.Like R p p') : Tty.result x p = Tty.result x p' := by
  simp only [Tty.result, like.bytes, like.returned]

omit [DecidableEq P] in
theorem Related.entering (related : Related R a b) (l : Label P) : a.entering l = b.entering l := by
  cases l <;> simp only [Tty.entering, related.reader]

theorem Related.enter (related : Related R a b) (sim : Simulates D D' R) (q : P) (x : Reader) :
    Related R (a.enter D q x) (b.enter D' q x) := by
  have like := sim.read x.target x.n related.device
  refine ⟨like.state, ?_⟩
  simp only [Tty.enter, related.reader, like.after]

omit [DecidableEq P] in
theorem Related.reads (related : Related R a b) (sim : Simulates D D' R) (x : Reader) :
    a.reads D x = b.reads D' x := by
  have like := sim.read x.target x.n related.device
  rw [Tty.reads, Tty.reads, like.bytes, like.result]

theorem Related.enters (related : Related R a b) (sim : Simulates D D' R) {l : Label P}
    (step : (a.entering l).map (fun px => a.enter D px.1 px.2) = some a') :
    ∃ b', (b.entering l).map (fun px => b.enter D' px.1 px.2) = some b' ∧ Related R a' b' ∧
      (a.entering l).map (fun px => a.reads D px.2) =
        (b.entering l).map (fun px => b.reads D' px.2) := by
  rw [related.entering] at step ⊢
  obtain ⟨⟨q, x⟩, entering, rfl⟩ := Option.map_eq_some_iff.mp step
  rw [entering]
  exact ⟨_, rfl, related.enter sim q x, congrArg some (related.reads sim x)⟩

theorem Related.step (related : Related R a b) (sim : Simulates D D' R) {l : Label P}
    (step : a.step D l = some a') :
    ∃ b', b.step D' l = some b' ∧ Related R a' b' ∧ a.obs D l = b.obs D' l := by
  cases l with
  | intr c =>
    obtain ⟨device, woken⟩ := sim.intr c related.device
    simp only [Tty.step, Tty.obs, woken, sim.room related.device] at step ⊢
    by_cases wakes : (D'.intr c b.device).2 = true
    · rw [if_pos wakes] at step ⊢
      cases step
      refine ⟨_, rfl, ⟨device, ?_⟩, trivial⟩
      simp only [Tty.wakeup, related.reader]
    · rw [if_neg wakes] at step ⊢
      cases step
      exact ⟨_, rfl, ⟨device, related.reader⟩, trivial⟩
  | call p n => exact related.enters sim step
  | resume p => exact related.enters sim step

/-- The systems go through the same runs. -/
theorem Related.run (related : Related R a b) (sim : Simulates D D' R) {ls : List (Label P)}
    (run : a.exec D ls = some a') :
    ∃ b', b.exec D' ls = some b' ∧ Related R a' b' ∧ a.trace D ls = b.trace D' ls :=
  Transition.refinement (fun _ _ _ _ related step => related.step sim step) related run

end Simulation

/-- The ring holds a line without a newline. -/
def Represents (s : Cons) (t : Line) : Prop := Holds s t ∧ newline ∉ t.line

variable {P : Type} [DecidableEq P]

/-- The characters between `cons.r` and `cons.w`. -/
def Cons.queue (s : Cons) : List UInt8 := contents s.buf inputBufSize uints s.r s.w

/-- The characters between `cons.w` and `cons.e`. -/
def Cons.line (s : Cons) : List UInt8 := contents s.buf inputBufSize uints s.w s.e

/-- What returns has been read from the queue. -/
theorem Kept.result {es : List Event} {u v : Tty Line P} {l : Label P} {bytes : List UInt8}
    {r : Result} (kept : Kept es u) (step : u.step Console.line l = some v)
    (event : u.obs Console.line l = some (.read bytes (some r))) :
    r.Ends u.device.queue v.device.queue := by
  have reads : ∀ l, (u.entering l).map (fun px => u.enter Console.line px.1 px.2) = some v →
      (u.entering l).map (fun px => u.reads Console.line px.2) = some (.read bytes (some r)) →
      r.Ends u.device.queue v.device.queue := by
    intro l step event
    obtain ⟨⟨q, x⟩, entering, rfl⟩ := Option.map_eq_some_iff.mp step
    rw [entering, Option.map_some, Option.some_inj] at event
    have valid := Tty.entering_valid kept.readers entering
    have took := read_took (t := u.device) (Nat.le.intro valid.count)
    injection event with _ result
    exact took.result valid result
  cases l with
  | intr c => cases event
  | call p n => exact reads _ step event
  | resume p => exact reads _ step event

end Sistemas.Xv6.Console
