import JackCompiler.Proofs.FreshLabels
import Mathlib.Data.List.Forall2
/-!
# Pairs of labels do not repeat

What a pair of labels is made for can be any text, also one that ends like a label. The number at
the end of a label holds no underscore, so it stands behind the last one, whatever stands before it;
and the counter gives no number twice. So no two pairs share a name, and the two names of a pair are
the same only if one role was asked for twice.
-/

namespace JackCompiler

namespace Labels

/-- What a pair of labels is made for: what both belong to, and the role of each. -/
structure Request where
  stem : String
  first : String
  second : String
  deriving DecidableEq, Repr

/-- The pairs that are made for requests, one after the other. -/
def pairs (l : Labels) : List Request → List (String × String)
  | [] => []
  | r :: requests =>
    let made := l.pair r.stem r.first r.second
    made.1 :: made.2.pairs requests

/-- No name of one pair is a name of the other. -/
def Apart (a b : String × String) : Prop :=
  a.1 ≠ b.1 ∧ a.1 ≠ b.2 ∧ a.2 ≠ b.1 ∧ a.2 ≠ b.2

instance (a b : String × String) : Decidable (Apart a b) :=
  inferInstanceAs (Decidable (_ ∧ _))

variable {l : Labels} {requests : List Request}

/-- Names of one number are told apart by their roles. -/
theorem text_eq_text_iff {stem role role' : String} {n : Nat} :
    text stem role n = text stem role' n ↔ role = role' := by
  constructor
  · intro h
    have hroles : stem ++ "_" ++ role = stem ++ "_" ++ role' := (text_inj h).1
    exact (String.append_right_inj _).1 hroles
  · rintro rfl
    rfl

/-- A pair takes the number of the counter, and the counter goes on behind it. -/
theorem between_pair (l : Labels) (stem first second : String) :
    Between l.next (l.pair stem first second).2.next (l.pair stem first second).1.1 ∧
      Between l.next (l.pair stem first second).2.next (l.pair stem first second).1.2 :=
  ⟨⟨stem, first, l.next, Nat.le_refl _, Nat.lt_succ_self _, rfl⟩,
    ⟨stem, second, l.next, Nat.le_refl _, Nat.lt_succ_self _, rfl⟩⟩

/-- The pairs of a sequence of requests take as many numbers as there are requests. -/
theorem between_of_mem_pairs {names : String × String} (h : names ∈ l.pairs requests) :
    Between l.next (l.next + requests.length) names.1 ∧
      Between l.next (l.next + requests.length) names.2 := by
  induction requests generalizing l with
  | nil => cases h
  | cons r requests ih =>
    have hlength : l.next + (r :: requests).length = l.next + 1 + requests.length := by
      rw [List.length_cons]
      omega
    rw [hlength]
    rcases List.mem_cons.1 h with rfl | h
    · obtain ⟨hfirst, hsecond⟩ := between_pair l r.stem r.first r.second
      exact ⟨hfirst.mono (Nat.le_refl _) (Nat.le_add_right _ _),
        hsecond.mono (Nat.le_refl _) (Nat.le_add_right _ _)⟩
    · obtain ⟨hfirst, hsecond⟩ := ih h
      exact ⟨hfirst.mono (Nat.le_succ _) (Nat.le_refl _),
        hsecond.mono (Nat.le_succ _) (Nat.le_refl _)⟩

theorem pairwise_pairs (l : Labels) (requests : List Request) :
    (l.pairs requests).Pairwise Apart := by
  induction requests generalizing l with
  | nil => exact List.Pairwise.nil
  | cons r requests ih =>
    -- The first pair takes the number of the counter, all others take later ones.
    refine List.Pairwise.cons (fun names h => ?_) (ih _)
    obtain ⟨hfirst, hsecond⟩ := between_pair l r.stem r.first r.second
    obtain ⟨hfirst', hsecond'⟩ := between_of_mem_pairs h
    exact ⟨hfirst.ne hfirst', hfirst.ne hsecond', hsecond.ne hfirst', hsecond.ne hsecond'⟩

/-- **No label is made twice.** Whatever pairs of labels are asked for, no name of one pair is a
name of another; and the two names of a pair are the same exactly if its two roles are. -/
theorem pairs_never_repeat (l : Labels) (requests : List Request) :
    (l.pairs requests).Pairwise Apart ∧
      List.Forall₂ (fun r names => names.1 = names.2 ↔ r.first = r.second)
        requests (l.pairs requests) := by
  refine ⟨pairwise_pairs l requests, ?_⟩
  induction requests generalizing l with
  | nil => exact List.Forall₂.nil
  | cons r requests ih => exact List.Forall₂.cons text_eq_text_iff (ih _)

example : pairs ⟨0⟩ [⟨"IF", "END_1", "END"⟩, ⟨"IF_END", "1", "1"⟩]
    = [("IF_END_1_0", "IF_END_0"), ("IF_END_1_1", "IF_END_1_1")] := by
  decide

end Labels

end JackCompiler
