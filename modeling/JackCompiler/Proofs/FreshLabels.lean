import JackCompiler.Proofs.Emission
import JackCompiler.Proofs.Machine
import JackCompiler.Text.Numeral
import Mathlib.Data.List.Basic
/-!
# Labels are marked once

A label ends in the number it was made with, so labels with different numbers are different. Every
statement marks labels whose numbers lie between the counter before it and the counter after it, and
no label twice. Expressions mark none.
-/

namespace JackCompiler

/-! ## The number of a label -/

/-- A text that ends in a separator and a part without it determines both parts. -/
theorem append_separator_inj {α : Type} {a b x y : List α} {c : α} (hx : c ∉ x) (hy : c ∉ y)
    (h : a ++ c :: x = b ++ c :: y) : a = b ∧ x = y := by
  rcases List.append_eq_append_iff.1 h with ⟨d, rfl, hd⟩ | ⟨d, rfl, hd⟩
  · cases d with
    | nil => simpa using hd
    | cons e d =>
      obtain ⟨-, rfl⟩ := List.cons.inj hd
      exact absurd (by simp) hx
  · cases d with
    | nil => simpa [eq_comm] using hd
    | cons e d =>
      obtain ⟨-, rfl⟩ := List.cons.inj hd
      exact absurd (by simp) hy

namespace Labels

theorem separator_notMem_digits (n : Nat) : '_' ∉ n.repr.toList := by
  rw [Nat.toList_repr]
  exact Nat.underscore_not_in_toDigits

/-- **A label determines its number**, and what stands before the number. -/
theorem text_inj {stem role stem' role' : String} {n n' : Nat}
    (h : text stem role n = text stem' role' n') :
    stem ++ "_" ++ role = stem' ++ "_" ++ role' ∧ n = n' := by
  have hl : (stem ++ "_" ++ role).toList ++ '_' :: n.repr.toList
      = (stem' ++ "_" ++ role').toList ++ '_' :: n'.repr.toList := by
    simpa [text] using congrArg String.toList h
  -- the digits hold no separator, so the number begins behind the last one
  obtain ⟨hs, hn⟩ :=
    append_separator_inj (separator_notMem_digits n) (separator_notMem_digits n') hl
  have hdigits := congrArg Text.numeral? hn
  simp only [Nat.toList_repr, Text.numeral?_toDigits, Option.some.injEq] at hdigits
  exact ⟨String.toList_inj.1 hs, hdigits⟩

/-- The label was made with a number of the range. -/
def Between (a b : Nat) (name : String) : Prop :=
  ∃ stem role n, a ≤ n ∧ n < b ∧ name = text stem role n

theorem Between.mono {a b a' b' : Nat} {name : String} (h : Between a b name) (ha : a' ≤ a)
    (hb : b ≤ b') : Between a' b' name := by
  obtain ⟨stem, role, n, h₁, h₂, rfl⟩ := h
  exact ⟨stem, role, n, by omega, by omega, rfl⟩

/-- Labels of separate ranges are different. -/
theorem Between.ne {a b c : Nat} {name name' : String} (h : Between a b name)
    (h' : Between b c name') : name ≠ name' := by
  obtain ⟨stem, role, n, h₁, h₂, rfl⟩ := h
  obtain ⟨stem', role', n', h₁', h₂', rfl⟩ := h'
  intro heq
  have := (text_inj heq).2
  omega

/-- The labels are different, and their numbers are in the range. -/
structure Fresh (a b : Nat) (names : List String) : Prop where
  le : a ≤ b
  nodup : names.Nodup
  between : ∀ name ∈ names, Between a b name

namespace Fresh

variable {a b c : Nat} {xs ys : List String}

theorem nil (h : a ≤ b) : Fresh a b [] :=
  ⟨h, List.nodup_nil, by simp⟩

theorem append (hx : Fresh a b xs) (hy : Fresh b c ys) : Fresh a c (xs ++ ys) where
  le := Nat.le_trans hx.le hy.le
  nodup := List.nodup_append.2
    ⟨hx.nodup, hy.nodup, fun x h y h' => (hx.between x h).ne (hy.between y h')⟩
  between name h := by
    rcases List.mem_append.1 h with h | h
    · exact (hx.between name h).mono (Nat.le_refl a) hy.le
    · exact (hy.between name h).mono hx.le (Nat.le_refl c)

/-- Two labels of one number and two roles, with labels of larger numbers before each. -/
theorem pair {stem role role' : String} (hne : stem ++ "_" ++ role ≠ stem ++ "_" ++ role')
    (hx : Fresh (a + 1) b xs) (hy : Fresh b c ys) :
    Fresh a c (xs ++ text stem role a :: (ys ++ [text stem role' a])) := by
  have hroles : text stem role a ≠ text stem role' a := fun h => hne (text_inj h).1
  have hxy := hx.append hy
  have hnew : ∀ role, ∀ name ∈ xs ++ ys, text stem role a ≠ name := fun role name h =>
    Between.ne ⟨stem, role, a, Nat.le_refl a, Nat.lt_succ_self a, rfl⟩ (hxy.between name h)
  refine ⟨Nat.le_of_succ_le hxy.le, ?_, ?_⟩
  · -- bring the two labels to the front
    have hperm : (text stem role a :: text stem role' a :: (xs ++ ys)).Perm
        (xs ++ text stem role a :: (ys ++ [text stem role' a])) := by
      refine List.Perm.trans ?_ List.perm_middle.symm
      refine List.Perm.cons _ ?_
      rw [← List.append_assoc]
      exact (List.perm_append_singleton _ _).symm
    refine hperm.nodup_iff.1 ?_
    simp only [List.nodup_cons, List.mem_cons, not_or]
    exact ⟨⟨hroles, fun h => hnew _ _ h rfl⟩, fun h => hnew _ _ h rfl, hxy.nodup⟩
  · intro name h
    have hlt : a < c := hxy.le
    simp only [List.mem_append, List.mem_cons, List.not_mem_nil, or_false] at h
    rcases h with h | rfl | h | rfl
    · exact (hx.between name h).mono (Nat.le_succ a) hy.le
    · exact ⟨stem, role, a, Nat.le_refl a, hlt, rfl⟩
    · exact (hy.between name h).mono (Nat.le_of_succ_le hx.le) (Nat.le_refl c)
    · exact ⟨stem, role', a, Nat.le_refl a, hlt, rfl⟩

end Fresh

end Labels

/-! ## The labels of emitted code -/

theorem Code.labels_of_plain {code : Code} (h : code.Plain) : Code.labels code = [] := by
  refine List.filterMap_eq_nil_iff.2 fun i hi => ?_
  have hp := h i hi
  cases i with
  | label => cases hp
  | _ => rfl

namespace Emit

open Labels (Fresh)

variable {ctx : Context}

theorem labels_branchCode {n : Nat} {test first second : Code} (h : test.Plain) :
    Code.labels (branchCode n test first second) = Code.labels first
      ++ Labels.text "IF" "FALSE" n :: (Code.labels second ++ [Labels.text "IF" "END" n]) := by
  simp [branchCode, Code.labels_of_plain h, Instruction.label?]

theorem labels_loopCode {n : Nat} {test inner : Code} (h : test.Plain) :
    Code.labels (loopCode n test inner)
      = Labels.text "WHILE" "EXP" n :: (Code.labels inner ++ [Labels.text "WHILE" "END" n]) := by
  simp [loopCode, Code.labels_of_plain h, Instruction.label?]

mutual

/-- **The labels of a statement are made while it is emitted.** -/
theorem fresh_statement (s : Statement) {code : Code} {l l' : Labels}
    (he : statement ctx s l = .ok code l') : Fresh l.next l'.next (Code.labels code) := by
  match s with
  | .assign name index value =>
    obtain ⟨ha, rfl⟩ := statement_assign_eq_ok.1 he
    rw [Code.labels_of_plain (plain_assign ha)]
    exact .nil (Nat.le_refl _)
  | .branch condition yes no =>
    obtain ⟨test, ht, first, l₁, hf, second, hs, rfl⟩ := statement_branch_eq_ok.1 he
    have hsecond : Fresh l₁.next l'.next (Code.labels second) := by
      match no, hs with
      | none, hs =>
        obtain ⟨rfl, rfl⟩ := statements_nil_eq_ok.1 hs
        exact .nil (Nat.le_refl _)
      | some block, hs => exact fresh_statements block hs
    rw [labels_branchCode (plain_expr condition ht)]
    exact .pair (by decide) (fresh_statements yes hf) hsecond
  | .loop condition body =>
    obtain ⟨test, ht, inner, hi, rfl⟩ := statement_loop_eq_ok.1 he
    rw [labels_loopCode (plain_expr condition ht)]
    -- the first label of a loop stands at its beginning, with nothing before it
    have hbefore : Fresh (l.next + 1) (l.next + 1) [] := .nil (Nat.le_refl _)
    exact .pair (by decide) hbefore (fresh_statements body hi)
  | .perform c =>
    obtain ⟨⟨inner, hi, rfl⟩, rfl⟩ := statement_perform_eq_ok.1 he
    rw [Code.labels_append, Code.labels_of_plain (plain_call c hi)]
    exact .nil (Nat.le_refl _)
  | .leave value =>
    obtain ⟨ha, rfl⟩ := statement_leave_eq_ok.1 he
    obtain ⟨inner, hi, rfl⟩ := leave_eq_append_ret ha
    rw [Code.labels_append, Code.labels_of_plain (plain_of_ofExpr hi)]
    exact .nil (Nat.le_refl _)

theorem fresh_statements (block : List Statement) {code : Code} {l l' : Labels}
    (he : statements ctx block l = .ok code l') : Fresh l.next l'.next (Code.labels code) := by
  match block with
  | [] =>
    obtain ⟨rfl, rfl⟩ := statements_nil_eq_ok.1 he
    exact .nil (Nat.le_refl _)
  | s :: block =>
    obtain ⟨first, l₁, hf, others, ho, rfl⟩ := statements_cons_eq_ok.1 he
    rw [Code.labels_append]
    exact (fresh_statement s hf).append (fresh_statements block ho)

end

end Emit

end JackCompiler
