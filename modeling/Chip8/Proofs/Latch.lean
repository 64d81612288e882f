import Chip8.Proofs.KeyWait
import Mathlib.Data.List.Basic
import Mathlib.Data.List.Induction

/-! What a keypad knows of its past. A key is down when it was set last by a press, and a register
waits while nothing has answered, replaced or dropped its wait. Both are told by the history alone,
so that a press is answered exactly when its key was up and some wait was still open. -/

namespace Chip8

section Since
variable {α : Type} {begins : α → Prop} {ends : List α → α → Prop}
  {history later : List α} {a : α}

/-- Something has begun and not ended since. Whether an event ends it may hang on all before it. -/
def Since (begins : α → Prop) (ends : List α → α → Prop) (history : List α) : Prop :=
  ∃ past a later, history = past ++ a :: later ∧ begins a ∧
    ∀ mid b rest, later = mid ++ b :: rest → ¬ends (past ++ a :: mid) b

theorem not_since_nil : ¬Since begins ends [] := by
  rintro ⟨past, a, later, hsplit, -⟩
  simp at hsplit

theorem since_concat :
    Since begins ends (history ++ [a]) ↔
      begins a ∨ Since begins ends history ∧ ¬ends history a := by
  constructor
  · rintro ⟨past, b, later, hsplit, hbegins, hopen⟩
    rcases later.eq_nil_or_concat' with rfl | ⟨later, c, rfl⟩
    -- either the last event is the one that began, or it came later and did not end it
    · obtain ⟨-, rfl⟩ : history = past ∧ a = b := by simpa using hsplit
      exact .inl hbegins
    · rw [← List.cons_append, ← List.append_assoc] at hsplit
      obtain ⟨rfl, hlast⟩ := List.append_inj' hsplit rfl
      obtain rfl : a = c := by simpa using hlast
      refine .inr ⟨⟨past, b, later, rfl, hbegins, ?_⟩, hopen later a [] (by simp)⟩
      intro mid d rest hlater
      exact hopen mid d (rest ++ [a]) (by simp [hlater])
  · rintro (hbegins | ⟨⟨past, b, later, rfl, hbegins, hopen⟩, hlast⟩)
    · exact ⟨history, a, [], rfl, hbegins, by simp⟩
    · refine ⟨past, b, later ++ [a], by simp, hbegins, ?_⟩
      intro mid d rest hsplit
      rcases rest.eq_nil_or_concat' with rfl | ⟨rest, c, rfl⟩
      · obtain ⟨rfl, rfl⟩ : later = mid ∧ a = d := by simpa using hsplit
        exact hlast
      · rw [← List.cons_append, ← List.append_assoc] at hsplit
        exact hopen mid d rest (List.append_inj' hsplit rfl).1

theorem not_since_of_ends (h : ends history a) (hlater : ∀ b ∈ a :: later, ¬begins b) :
    ¬Since begins ends (history ++ a :: later) := by
  induction later using List.reverseRecOn with
  | nil =>
    rw [since_concat]
    exact not_or.mpr ⟨hlater a (by simp), fun hsince => hsince.2 h⟩
  | append_singleton later b ih =>
    have hearlier : ∀ c ∈ a :: later, ¬begins c := by
      intro c hc
      exact hlater c (List.mem_append_left [b] hc)
    rw [← List.cons_append, ← List.append_assoc, since_concat]
    exact not_or.mpr ⟨hlater b (by simp), fun hsince => ih hearlier hsince.1⟩

end Since

namespace Keypad
variable {Register : Type} {k : Keypad Register} {key : UInt8} {pressed : Bool} {r : Register}
  {answer : KeyPress Register}

inductive Event (Register : Type)
  | set (key : UInt8) (pressed : Bool)
  | await (r : Register)
  | reset

variable {history later : List (Event Register)} {e : Event Register}

def after (k : Keypad Register) : Event Register → Keypad Register
  | .set key pressed => k.setKey key pressed
  | .await r => k.await r
  | .reset => released

def answer? (k : Keypad Register) : Event Register → Option (KeyPress Register)
  | .set key pressed => k.press? key pressed
  | .await _ | .reset => none

def replay (history : List (Event Register)) : Keypad Register := history.foldl after released

/-- Since the last reset, the key was set, and last of all by a press. -/
def Held (key : Fin 16) : List (Event Register) → Prop :=
  Since (fun e => ∃ n, e = .set n true ∧ keyOf n = key)
    fun _ e => e = .reset ∨ ∃ n pressed, e = .set n pressed ∧ keyOf n = key

/-- What leaves no earlier wait open: a reset, a new wait, or an answer. -/
def ClosesWaits (past : List (Event Register)) (e : Event Register) : Prop :=
  e = .reset ∨ (∃ r, e = .await r) ∨ (replay past).answer? e ≠ none

/-- The latest wait since the last reset and the last answer is for this register. -/
def Pending (r : Register) : List (Event Register) → Prop := Since (· = .await r) ClosesWaits

theorem replay_concat (history : List (Event Register)) (e : Event Register) :
    replay (history ++ [e]) = (replay history).after e := by
  simp [replay]

theorem down_released (j : Fin 16) : (released : Keypad Register).down.get j = false :=
  Vector.getElem_replicate j.isLt

theorem down_replay (history : List (Event Register)) (j : Fin 16) :
    (replay history).down.get j = true ↔ Held j history := by
  induction history using List.reverseRecOn with
  | nil => exact iff_of_false (by simp [replay, down_released]) not_since_nil
  | append_singleton history e ih =>
    rw [replay_concat, Held, since_concat, ← Held, ← ih]
    cases e with
    | set key pressed =>
      rw [after, down_setKey]
      by_cases hkey : j = keyOf key
      · simp [hkey]
      · simp [hkey, Ne.symm hkey]
    | await r => simp [after, await]
    | reset => simp [after, down_released]

theorem waiting_setKey_of_press?_some (h : k.press? key pressed = some answer) :
    (k.setKey key pressed).waiting = none := if_pos (of_press?_eq_some h).1

theorem waiting_replay (history : List (Event Register)) (r : Register) :
    (replay history).waiting = some r ↔ Pending r history := by
  induction history using List.reverseRecOn with
  | nil => exact iff_of_false (by simp [replay, released]) not_since_nil
  | append_singleton history e ih =>
    rw [replay_concat, Pending, since_concat, ← Pending, ← ih]
    cases e with
    | set key pressed =>
      cases hpress : (replay history).press? key pressed with
      | none => simp [after, waiting_setKey_of_press?_none, ClosesWaits, answer?, hpress]
      | some answer =>
        simp [after, waiting_setKey_of_press?_some hpress, ClosesWaits, answer?, hpress]
    | await s => simp [after, await, ClosesWaits]
    | reset => simp [after, released, ClosesWaits]

theorem isDown_eq_true_iff (k : Keypad Register) (key : UInt8) :
    k.isDown key = true ↔ key.toNat ≤ 0xF ∧ k.down.get (keyOf key) = true := by
  rcases Nat.lt_or_ge key.toNat 16 with hkey | hkey
  · have hdigit : keyOf key = ⟨key.toNat, hkey⟩ := Fin.ext (Nat.mod_eq_of_lt hkey)
    have hlookup : k.isDown key = k.down.get ⟨key.toNat, hkey⟩ := by
      rw [isDown, Vector.getElem?_eq_getElem hkey]
      rfl
    rw [hlookup, hdigit]
    exact (and_iff_right (Nat.le_of_lt_succ hkey)).symm
  · have hlookup : k.isDown key = false := by
      rw [isDown, Vector.getElem?_eq_none hkey]
      rfl
    rw [hlookup]
    exact iff_of_false (by simp) (by omega)

theorem press?_eq_some_iff :
    k.press? key pressed = some answer ↔
      pressed = true ∧ ¬k.down.get (keyOf key) = true ∧ k.waiting = some answer.register ∧
        answer.key = keyOf key := by
  constructor
  · intro h
    obtain ⟨⟨hpressed, hup⟩, hwaiting⟩ := of_press?_eq_some h
    rw [press?_of_rise ⟨hpressed, hup⟩, hwaiting] at h
    refine ⟨hpressed, by simp [hup], hwaiting, ?_⟩
    exact congrArg KeyPress.key (Option.some.inj h).symm
  · rintro ⟨hpressed, hup, hwaiting, hkey⟩
    rw [press?_of_rise ⟨hpressed, by simpa using hup⟩, hwaiting, ← hkey]
    rfl

theorem waiting_of_answer? (h : k.answer? e = some answer) : k.waiting = some answer.register := by
  cases e with
  | set key pressed => exact (of_press?_eq_some h).2
  | await | reset => cases h

theorem not_pending_of_closesWaits (h : ClosesWaits history e)
    (hlater : .await r ∉ e :: later) : ¬Pending r (history ++ e :: later) := by
  apply not_since_of_ends h
  intro b hb hawait
  exact hlater (hawait ▸ hb)

/-- The answers of a keypad and the keys it shows as down are told by what happened to it: a press
answers the latest wait that nothing has closed, unless its key is held, and a wait that is over is
never answered, until its register is awaited anew. -/
theorem latch_tells_history (history : List (Event Register)) :
    (∀ key, (replay history).isDown key = true ↔
        key.toNat ≤ 0xF ∧ Held (keyOf key) history) ∧
      (∀ key pressed answer, (replay history).press? key pressed = some answer ↔
        pressed = true ∧ ¬Held (keyOf key) history ∧ Pending answer.register history ∧
          answer.key = keyOf key) ∧
      ∀ past e later r, history = past ++ e :: later →
        ClosesWaits past e → .await r ∉ e :: later →
          ∀ next answer, (replay history).answer? next = some answer → answer.register ≠ r := by
  refine ⟨?_, ?_, ?_⟩
  · intro key
    rw [isDown_eq_true_iff, down_replay]
  · intro key pressed answer
    rw [press?_eq_some_iff, down_replay, waiting_replay]
  · rintro past e later r rfl hcloses hlater next answer hanswer rfl
    exact not_pending_of_closesWaits hcloses hlater
      ((waiting_replay _ _).mp (waiting_of_answer? hanswer))

theorem latch_of_two_waits :
    let past : List (Event Nat) := [.await 3]
    let later : List (Event Nat) := [.await 5, .set 0x22 false]
    let history := past ++ .set 0x12 true :: later
    ClosesWaits past (.set 0x12 true) ∧ ¬Held 2 history ∧ Pending 5 history ∧
      (replay history).press? 0x32 true = some ⟨5, 2⟩ ∧
      ∀ next answer, (replay history).answer? next = some answer → answer.register ≠ 3 := by
  intro past later history
  have hcloses : ClosesWaits past (.set 0x12 true) := by
    refine .inr (.inr ?_)
    decide
  have hanew : .await 3 ∉ .set 0x12 true :: later := by simp [later]
  have hanswer : (replay history).press? 0x32 true = some ⟨5, 2⟩ := by decide
  obtain ⟨-, hpress, hover⟩ := latch_tells_history history
  obtain ⟨-, hup, hpending, -⟩ := (hpress 0x32 true ⟨5, 2⟩).mp hanswer
  exact ⟨hcloses, hup, hpending, hanswer, hover past _ later 3 rfl hcloses hanew⟩

end Keypad
end Chip8
