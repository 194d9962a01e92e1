import Reckoner.Calculator
import Reckoner.Proofs.Height

/-! Places. Tokens carry the places they were read at, and faults the places they are found at.
Main statement: neither the postfix order nor the value depends on the places; where the tokens are
moved, the fault moves with them, and nothing else changes. -/
namespace Reckoner
variable (g : Nat → Nat)

def Token.relocate (t : Token) : Token := ⟨t.symbol, t.position.map fun p => g p.toNat⟩

/-- Only an unexpected character is told with its place. -/
def Cause.relocate : Cause → Cause
  | .unexpectedCharacter c i => .unexpectedCharacter c (g i)
  | c => c

def Fault.relocate (f : Fault) : Fault := ⟨f.cause.relocate g, f.position.map fun p => g p.toNat⟩

def Failure.relocate : Failure → Failure
  | .fault f => .fault (f.relocate g)
  | e => e

def Postfix.State.relocate (s : State) : State :=
  ⟨s.output.map (·.relocate g), s.waiting.map (·.relocate g), s.expectsOperand,
    s.last.map (·.relocate g)⟩

/-- The same outcome at other places. -/
def relocated {α : Type} (x : Except Failure α) : Except Failure α := x.mapError (·.relocate g)

@[simp] theorem relocated_ok {α : Type} (a : α) :
    relocated g (.ok a : Except Failure α) = .ok a := rfl

@[simp] theorem relocated_error {α : Type} (e : Failure) :
    relocated g (.error e : Except Failure α) = .error (e.relocate g) := rfl

theorem relocated_bind {α β : Type} (x : Except Failure α) {k k' : α → Except Failure β}
    (h : ∀ a, k' a = relocated g (k a)) : (relocated g x >>= k') = relocated g (x >>= k) := by
  cases x with
  | error e => rfl
  | ok a => exact h a

theorem Failure.relocate_of_isArithmetic {e : Failure} (h : e.IsArithmetic) :
    e.relocate g = e := by
  cases e with
  | fault f =>
    obtain ⟨cause, position⟩ := f
    obtain ⟨rfl, hk⟩ : position = none ∧ cause.kind.isArithmetic = true := h
    cases cause <;> first | rfl | cases hk
  | limit s => rfl
  | _ => cases h

namespace Postfix

@[simp] theorem isLeft_relocate : isLeft ∘ Token.relocate g = isLeft := rfl

@[simp] theorem not_isLeft_relocate :
    (fun t => !isLeft t) ∘ Token.relocate g = fun t => !isLeft t := rfl

@[simp] theorem leavesFor_relocate (o : Operator) :
    leavesFor o ∘ Token.relocate g = leavesFor o := rfl

theorem missingOperand?_relocate (s : State) :
    (s.relocate g).missingOperand? = s.missingOperand?.map (·.relocate g) := by
  cases hl : s.last with
  | none => simp [State.missingOperand?, State.relocate, hl]
  | some u =>
    have hu : (u.relocate g).operator? = u.operator? := rfl
    cases ho : u.operator? with
    | none => simp [State.missingOperand?, State.relocate, hl, hu, ho]
    | some o => simp [State.missingOperand?, State.relocate, hl, hu, ho]; rfl

theorem close_relocate (t : Token) (s : State) :
    close (t.relocate g) (s.relocate g) = relocated g ((close t s).map (·.relocate g)) := by
  simp only [close, State.relocate, List.dropWhile_map, List.takeWhile_map, not_isLeft_relocate]
  cases s.waiting.dropWhile (!isLeft ·) with
  | nil => rfl
  | cons w rest => simp [Except.map]

theorem step_relocate (t : Token) (s : State) :
    step (t.relocate g) (s.relocate g) = relocated g ((step t s).map (·.relocate g)) := by
  have ht : (t.relocate g).symbol = t.symbol := rfl
  have he : (s.relocate g).expectsOperand = s.expectsOperand := rfl
  unfold step
  rw [ht, he, missingOperand?_relocate]
  cases t.symbol with
  | number n => simp [Except.map, State.relocate]
  | paren side a =>
    cases side with
    | left => simp [Except.map, State.relocate]
    | right =>
      cases s.missingOperand? with
      | none => exact close_relocate g t s
      | some f => rfl
  | operator o =>
    cases o <;> cases s.expectsOperand <;>
      simp [Except.map, State.relocate, List.takeWhile_map, List.dropWhile_map] <;> rfl
  | other kind a => rfl

theorem run_relocate (ts : List Token) (s : State) :
    run (ts.map (·.relocate g)) (s.relocate g) = relocated g ((run ts s).map (·.relocate g)) := by
  induction ts generalizing s with
  | nil => rfl
  | cons t ts ih =>
    simp only [List.map_cons, run, step_relocate]
    cases step t s with
    | error e => rfl
    | ok s' => exact ih s'

theorem finish_relocate (s : State) :
    finish (s.relocate g) = relocated g ((finish s).map (·.map (·.relocate g))) := by
  simp only [finish, missingOperand?_relocate]
  cases s.missingOperand? with
  | some f => rfl
  | none =>
    simp only [State.relocate, List.find?_map, isLeft_relocate]
    cases s.waiting.find? isLeft with
    | none => simp [Except.map]
    | some t => rfl

theorem ofInfix_relocate (ts : List Token) :
    ofInfix (ts.map (·.relocate g)) = relocated g ((ofInfix ts).map (·.map (·.relocate g))) := by
  have hstart : State.start = State.start.relocate g := rfl
  rw [ofInfix, hstart, run_relocate, ofInfix]
  cases run ts State.start with
  | error e => rfl
  | ok s => exact finish_relocate g s

theorem applyTop_relocate (t : Token) (o : Operator) (values : List Decimal) :
    applyTop (t.relocate g) o values = relocated g (applyTop t o values) := by
  obtain _ | ⟨b, rest⟩ := values
  · cases o <;> rfl
  cases o with
  | unary u => rfl
  | binary o =>
    obtain _ | ⟨a, rest⟩ := rest
    · rfl
    simp only [applyTop]
    cases hab : o.apply a b with
    | ok v => rfl
    | error e =>
      have hmoved := Failure.relocate_of_isArithmetic g (BinaryOperator.isArithmetic_of_apply hab)
      simp [Except.map, hmoved]

theorem push_relocate (t : Token) (values : List Decimal) :
    push (t.relocate g) values = relocated g (push t values) := by
  have ht : (t.relocate g).symbol = t.symbol := rfl
  unfold push
  rw [ht]
  cases t.symbol with
  | operator o => exact applyTop_relocate g t o values
  | _ => rfl

theorem pushAll_relocate (ts : List Token) (values : List Decimal) :
    pushAll (ts.map (·.relocate g)) values = relocated g (pushAll ts values) := by
  induction ts generalizing values with
  | nil => rfl
  | cons t ts ih =>
    simp only [List.map_cons, pushAll, push_relocate]
    exact relocated_bind g (push t values) ih

theorem showAll_relocate (ts : List Token) :
    Token.showAll (ts.map (·.relocate g)) = Token.showAll ts := by
  rw [Token.showAll, List.map_map]
  rfl

theorem evaluate_relocate (ts : List Token) :
    evaluate (ts.map (·.relocate g)) = relocated g (evaluate ts) := by
  rw [evaluate, pushAll_relocate, evaluate]
  refine relocated_bind g (pushAll ts []) fun values => ?_
  obtain _ | ⟨a, _ | ⟨b, rest⟩⟩ := values
  · rfl
  · rfl
  · simp only [showAll_relocate]
    rfl

end Postfix
end Reckoner
