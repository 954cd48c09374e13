import Stackless.Problem
import Stackless.Proofs.Digits

/-!
# Messages

The message of a problem is cut out of its text at the first colon that has a blank after it. The
location in front of it has a colon of its own, with a digit after it, and nothing that comes from
a script stands before the cut. So the cut is always at the end of the location
(`Problem.afterColon_span`), whatever the names in the text look like.
-/

namespace Stackless

theorem colon_not_mem_toDigits (n : Nat) : ':' ∉ Nat.toDigits 10 n := fun h =>
  ne_of_isDigit (isDigit_of_mem_toDigits h) (by decide) rfl

theorem Span.text_toList (s : Span) :
    s.text.toList = Nat.toDigits 10 s.line ++ ':' :: Nat.toDigits 10 s.column := by
  simp [text]

namespace Problem

theorem afterColon_cons_of_ne {c : Char} {rest : List Char} (h : c ≠ ':') :
    afterColon (c :: rest) = afterColon rest := by
  rw [afterColon]
  rintro rest rfl
  exact absurd rfl h

theorem afterColon_colon_of_ne {c : Char} {rest : List Char} (h : c ≠ ' ') :
    afterColon (':' :: c :: rest) = afterColon (c :: rest) := by
  rw [afterColon]
  rintro rest' - heq
  exact h (List.cons.inj heq).1

/-- Text without colons is passed over. -/
theorem afterColon_append {before rest : List Char} (h : ':' ∉ before) :
    afterColon (before ++ rest) = afterColon rest := by
  induction before with
  | nil => rfl
  | cons c before ih =>
    have hc : c ≠ ':' := fun hc => h (hc ▸ List.mem_cons_self)
    rw [List.cons_append, afterColon_cons_of_ne hc]
    exact ih fun hmem => h (List.mem_cons_of_mem _ hmem)

/-- The text of a location is passed over, with the colon in it. -/
theorem afterColon_span (s : Span) (rest : List Char) :
    afterColon (s.text.toList ++ ':' :: ' ' :: rest) = some rest := by
  obtain ⟨d, ds, hcolumn, hd⟩ := exists_toDigits_eq_cons s.column
  have hblank : d ≠ ' ' := ne_of_isDigit hd (by decide)
  have hcolon : ':' ∉ d :: ds := hcolumn ▸ colon_not_mem_toDigits s.column
  calc afterColon (s.text.toList ++ ':' :: ' ' :: rest)
      = afterColon (Nat.toDigits 10 s.line ++ ':' :: d :: (ds ++ ':' :: ' ' :: rest)) := by
        rw [Span.text_toList, hcolumn, List.append_assoc]
        rfl
    _ = afterColon (':' :: d :: (ds ++ ':' :: ' ' :: rest)) :=
        afterColon_append (colon_not_mem_toDigits s.line)
    _ = afterColon ((d :: ds) ++ ':' :: ' ' :: rest) := afterColon_colon_of_ne hblank
    _ = afterColon (':' :: ' ' :: rest) := afterColon_append hcolon
    _ = some rest := rfl

/-- Every text begins with the location of its problem. -/
theorem exists_text_toList_eq (p : Problem) :
    ∃ body, p.text.toList = "at ".toList ++ (p.span.text.toList ++ ':' :: ' ' :: body) := by
  -- what follows the location is read off each text
  cases p <;> exact ⟨_, by
    delta text
    simp only [String.toList_append, List.append_assoc]
    rfl⟩

theorem text_eq (p : Problem) : p.text = "at " ++ p.span.text ++ ": " ++ p.message := by
  obtain ⟨body, hbody⟩ := p.exists_text_toList_eq
  have hcut : afterColon p.text.toList = some body := by
    rw [hbody, afterColon_append (by decide), afterColon_span]
  have hmessage : p.message.toList = body := by
    rw [message, hcut]
    exact String.toList_ofList
  apply String.toList_inj.mp
  rw [hbody, ← hmessage]
  simp

end Problem

/-- A diagnostic shows the location and the whole message of its problem. -/
theorem Diagnostic.text_ofProblem (p : Problem) :
    p.text = "at " ++ p.span.text ++ ": " ++ p.message ∧
    (ofProblem p).text = p.severity.text ++ " at " ++ p.span.text ++ ": " ++ p.message ∧
    (ofProblem p).text = p.severity.text ++ " " ++ p.text := by
  have htext := p.text_eq
  refine ⟨htext, rfl, ?_⟩
  rw [htext]
  apply String.toList_inj.mp
  simp [text, ofProblem]

end Stackless
