import Mathlib.Data.List.Nodup
import Reckoner.Proofs.Groups

/-! Tokens told apart. Postfix order is made by symbols alone, so tokens that may be equal can be
given their indices in the list for positions. Main statement: accepted tokens are accepted with
their indices too, and come out in the same order. -/
namespace Reckoner.Postfix

def State.map (f : Token → Token) (s : State) : State :=
  ⟨s.output.map f, s.waiting.map f, s.expectsOperand, s.last.map f⟩

section KeepsSymbols
variable {f : Token → Token} (hf : ∀ t, (f t).symbol = t.symbol)
include hf

theorem isLeft_map (t : Token) : isLeft (f t) = isLeft t := by simp only [isLeft, hf]

theorem isRight_map (t : Token) : isRight (f t) = isRight t := by simp only [isRight, hf]

theorem leavesFor_map (o : Operator) (t : Token) : leavesFor o (f t) = leavesFor o t := by
  simp only [leavesFor, Token.operator?, hf]

theorem missingOperand?_map_eq_none_iff {s : State} :
    (s.map f).missingOperand? = none ↔ s.missingOperand? = none := by
  cases hl : s.last <;> simp [State.missingOperand?, State.map, hl, Token.operator?, hf]

theorem Move.of_map {t : Token} {s r : State} (h : Move (f t) (s.map f) r) :
    ∃ s', Move t s s' ∧ s'.map f = r := by
  cases h with
  | number n ht => exact ⟨_, .number n ((hf t).symm.trans ht), rfl⟩
  | left a ht => exact ⟨_, .left a ((hf t).symm.trans ht), rfl⟩
  | right b above rest l ht hm hw ha hl =>
    obtain ⟨above, below, hsplit, rfl, hbelow⟩ := List.map_eq_append_iff.1 hw
    obtain ⟨l, rest, rfl, rfl, rfl⟩ := List.map_eq_cons_iff.1 hbelow
    refine ⟨_, .right b above rest l ((hf t).symm.trans ht)
      ((missingOperand?_map_eq_none_iff hf).1 hm) hsplit (fun w hw => ?_) ?_, ?_⟩
    · rw [← isLeft_map hf]
      exact ha _ (List.mem_map_of_mem hw)
    · rwa [← isLeft_map hf]
    · simp [State.map]
  | sign o ht hs => exact ⟨_, .sign o ((hf t).symm.trans ht) hs, rfl⟩
  | operator o above rest ht hs hw ha hr =>
    obtain ⟨above, rest, hsplit, rfl, rfl⟩ := List.map_eq_append_iff.1 hw
    refine ⟨_, .operator o above rest ((hf t).symm.trans ht) hs hsplit (fun w hw => ?_)
      (fun w hw => ?_), ?_⟩
    · rw [← leavesFor_map hf]
      exact ha _ (List.mem_map_of_mem hw)
    · rw [← leavesFor_map hf]
      exact hr _ (by rw [List.head?_map, hw]; rfl)
    · simp [State.map]

theorem run_of_map {ts : List Token} {s r : State} (h : run (ts.map f) (s.map f) = .ok r) :
    ∃ s', run ts s = .ok s' ∧ s'.map f = r := by
  induction ts generalizing s with
  | nil => exact ⟨s, rfl, Except.ok.inj h⟩
  | cons t ts ih =>
    obtain ⟨r₁, hm, hr⟩ := run_cons_eq_ok h
    obtain ⟨s₁, hmove, rfl⟩ := hm.of_map hf
    obtain ⟨s', hrun, hs'⟩ := ih hr
    refine ⟨s', ?_, hs'⟩
    rw [run, hmove.step_eq]
    exact hrun

theorem ofInfix_of_map {ts out : List Token} (h : ofInfix (ts.map f) = .ok out) :
    ∃ out', ofInfix ts = .ok out' ∧ out'.map f = out := by
  obtain ⟨r, hr, hfinish⟩ := exists_run_of_ofInfix h
  obtain ⟨s, hs, rfl⟩ := run_of_map hf (s := .start) hr
  obtain ⟨hm, hleft, rfl⟩ := finish_eq_ok hfinish
  have hm := (missingOperand?_map_eq_none_iff hf).1 hm
  have hnone : s.waiting.find? isLeft = none := List.find?_eq_none.2 fun w hw => by
    simpa [isLeft_map hf] using hleft (f w) (List.mem_map_of_mem hw)
  refine ⟨s.output.reverse ++ s.waiting, ?_, by simp [State.map]⟩
  simp only [ofInfix_of_run hs, finish, hm, hnone]

theorem Balanced.of_map {ts : List Token} (h : Balanced (ts.map f)) : Balanced ts := by
  have hopens (us : List Token) : opens (us.map f) = opens us := by
    rw [opens, List.countP_map, opens]
    exact congrArg (List.countP · us) (funext (isLeft_map hf))
  have hcloses (us : List Token) : closes (us.map f) = closes us := by
    rw [closes, List.countP_map, closes]
    exact congrArg (List.countP · us) (funext (isRight_map hf))
  refine ⟨fun us hus => ?_, ?_⟩
  · rw [← hopens, ← hcloses]
    exact h.covered _ (hus.map f)
  · rw [← hopens, ← hcloses]
    exact h.settled

end KeepsSymbols

def indexed (ts : List Token) : List Token :=
  ts.zipIdx.map fun p => ⟨p.1.symbol, some (p.2 : Int)⟩

def index (t : Token) : Nat := (t.position.getD 0).toNat

def restored (ts : List Token) (t : Token) : Token := ⟨t.symbol, ts[index t]?.bind Token.position⟩

theorem length_indexed (ts : List Token) : (indexed ts).length = ts.length := by
  rw [indexed, List.length_map, List.length_zipIdx]

theorem map_index_indexed (ts : List Token) : (indexed ts).map index = List.range ts.length := by
  have hcomp : (index ∘ fun p : Token × Nat => ⟨p.1.symbol, some (p.2 : Int)⟩) = Prod.snd := rfl
  rw [indexed, List.map_map, hcomp, List.zipIdx_map_snd, List.range_eq_range']

theorem nodup_indexed (ts : List Token) : (indexed ts).Nodup :=
  List.Nodup.of_map index (map_index_indexed ts ▸ List.nodup_range)

theorem map_index_front {ts us : List Token} (h : us <+: indexed ts) :
    us.map index = List.range us.length := by
  have hmap := h.map index
  have hlen := h.length_le
  rw [map_index_indexed] at hmap
  rw [length_indexed] at hlen
  rw [List.prefix_iff_eq_take.1 hmap, List.take_range, List.length_map, Nat.min_eq_left hlen]

theorem index_of_split {ts us vs : List Token} {t : Token} (h : indexed ts = us ++ t :: vs) :
    index t = us.length := by
  have hread : us ++ [t] <+: indexed ts := ⟨vs, by simp [h]⟩
  have hfront := map_index_front ((List.prefix_append us [t]).trans hread)
  have hnext := map_index_front hread
  rw [List.map_append, hfront, List.length_append, List.length_singleton, List.range_succ] at hnext
  simpa using List.append_cancel_left hnext

theorem restored_of_getElem? {ts : List Token} {i : Nat} {t : Token} (h : ts[i]? = some t) :
    restored ts ⟨t.symbol, some (i : Int)⟩ = t := by simp [restored, index, h]

theorem getElem?_index {ts : List Token} {t : Token} (h : t ∈ indexed ts) :
    ts[index t]? = some (restored ts t) := by
  obtain ⟨⟨u, i⟩, hmem, rfl⟩ := List.mem_map.1 h
  have hu : ts[i]? = some u := List.mem_zipIdx_iff_getElem?.1 hmem
  rw [restored_of_getElem? hu]
  exact hu

theorem map_restored_indexed (ts : List Token) : (indexed ts).map (restored ts) = ts := by
  calc
    (indexed ts).map (restored ts) = ts.zipIdx.map Prod.fst := by
      rw [indexed, List.map_map]
      exact List.map_congr_left fun p hp =>
        restored_of_getElem? (List.mem_zipIdx_iff_getElem?.1 hp)
    _ = ts := List.zipIdx_map_fst 0 ts

def holdsAt (ts : List Token) (p : Token → Bool) (i : Nat) : Bool := ts[i]?.any p

section BySymbol
variable {p : Token → Bool} (hp : ∀ t u : Token, t.symbol = u.symbol → p t = p u)
include hp

theorem holdsAt_index {ts : List Token} {t : Token} (h : t ∈ indexed ts) :
    holdsAt ts p (index t) = p t := by
  rw [holdsAt, getElem?_index h]
  exact hp _ _ rfl

theorem filter_map_index {ts us : List Token} (h : us ⊆ indexed ts) :
    (us.map index).filter (holdsAt ts p) = (us.filter p).map index := by
  rw [List.filter_map]
  exact congrArg (List.map index) (List.filter_congr fun t ht => holdsAt_index hp (h ht))

end BySymbol

theorem exists_ofInfix_indexed {ts out : List Token} (h : ofInfix ts = .ok out) :
    ∃ out', ofInfix (indexed ts) = .ok out' ∧ out'.map (restored ts) = out := by
  rw [← map_restored_indexed ts] at h
  exact ofInfix_of_map (f := restored ts) (fun _ => rfl) h

end Reckoner.Postfix
