import Stackless.Machine.Slot
import Stackless.Proofs.Digits

/-!
# Phrases

The texts of code are phrases: a word, a word with arguments in parentheses, or a phrase with a slot
after a point. Reading on from the start of a phrase to the first mark that no parenthesis of the
phrase encloses leads to its end (`Phrase.after_text`), so the arguments of a phrase are told apart
by the commas between them, although they have commas of their own. A word never looks like a phrase
with a slot. So the text of a phrase determines it (`Phrase.text_inj`).
-/

namespace Stackless

/-! ## Words -/

/-- The characters that no word has. -/
def isMark (c : Char) : Bool := c = '(' || c = ')' || c = ',' || c = ';'

/-- What a word looks like. As it has a point or a capital letter, but not both, it does not end in
a point and the name of a slot. -/
def Plain (chars : List Char) : Prop :=
  chars ≠ [] ∧ (∀ c ∈ chars, isMark c = false) ∧ ('.' ∉ chars ∨ ∀ c ∈ chars, c.isUpper = false)

/-- Characters that are neither marks nor points make a word. -/
theorem plain_of_all {chars : List Char} (hne : chars ≠ [])
    (h : chars.all (fun c => !isMark c && c != '.') = true) : Plain chars := by
  simp only [List.all_eq_true, Bool.and_eq_true, Bool.not_eq_true', bne_iff_ne] at h
  exact ⟨hne, fun c hc => (h c hc).1, .inl fun hc => (h '.' hc).2 rfl⟩

theorem isMark_of_isDigit {c : Char} (h : c.isDigit = true) : isMark c = false := by
  have hne (mark : Char) (hmark : mark.isDigit = false) : c ≠ mark := ne_of_isDigit h hmark
  simp [isMark, hne '(' rfl, hne ')' rfl, hne ',' rfl, hne ';' rfl]

theorem isUpper_of_isDigit {c : Char} (h : c.isDigit = true) : c.isUpper = false := by
  have hle : c.toNat ≤ 57 := (Char.isDigit_iff_toNat.mp h).2
  refine decide_eq_false fun hupper => ?_
  have hge : 65 ≤ c.toNat := UInt32.le_iff_toNat_le.mp hupper.1
  omega

/-- Digits, with signs and points between them, make a word. -/
theorem plain_of_digits {chars : List Char} (hne : chars ≠ [])
    (h : ∀ c ∈ chars, c.isDigit = true ∨ c = '-' ∨ c = '.') : Plain chars := by
  refine ⟨hne, fun c hc => ?_, .inr fun c hc => ?_⟩
  · rcases h c hc with hdigit | rfl | rfl
    · exact isMark_of_isDigit hdigit
    · rfl
    · rfl
  · rcases h c hc with hdigit | rfl | rfl
    · exact isUpper_of_isDigit hdigit
    · rfl
    · rfl

@[ext] structure Word where
  chars : List Char
  plain : Plain chars

namespace Slot

/-- The letter that names a slot. -/
def letter (s : Slot) : Char := Char.ofNat (65 + s.position.val)

theorem isUpper_letter (s : Slot) : s.letter.isUpper = true := by
  have hall : ∀ p : Fin 26, (Char.ofNat (65 + p.val)).isUpper = true := by decide
  exact hall s.position

theorem letter_inj {s t : Slot} (h : s.letter = t.letter) : s = t := by
  have hall : ∀ p q : Fin 26, Char.ofNat (65 + p.val) = Char.ofNat (65 + q.val) → p = q := by decide
  cases s
  cases t
  exact congrArg Slot.mk (hall _ _ h)

theorem letter_not_mark (s : Slot) : isMark s.letter = false := by
  have hall : ∀ p : Fin 26, isMark (Char.ofNat (65 + p.val)) = false := by decide
  exact hall s.position

end Slot

theorem Word.ne_append_slot (w : Word) (chars : List Char) (s : Slot) :
    w.chars ≠ chars ++ ['.', s.letter] := by
  intro h
  have hpoint : '.' ∈ w.chars := by simp [h]
  have hletter : s.letter ∈ w.chars := by simp [h]
  rcases w.plain.2.2 with hnone | hlower
  · exact hnone hpoint
  · have := hlower _ hletter
    rw [s.isUpper_letter] at this
    cases this

theorem Word.open_not_mem (w : Word) : '(' ∉ w.chars := fun h => by
  have hmark := w.plain.2.1 _ h
  cases hmark

/-! ## Phrases -/

inductive Phrase where
  | word (w : Word)
  | call (w : Word) (arguments : List Phrase)
  /-- A phrase with a slot after it. -/
  | slot (owner : Phrase) (s : Slot)

namespace Phrase

mutual

def text : Phrase → List Char
  | .word w => w.chars
  | .call w ps => w.chars ++ '(' :: (listText ps ++ [')'])
  | .slot p s => p.text ++ ['.', s.letter]

/-- The texts of phrases with commas between them. -/
def listText : List Phrase → List Char
  | [] => []
  | p :: ps => p.text ++ restText ps

/-- The texts of phrases with a comma before each of them. -/
def restText : List Phrase → List Char
  | [] => []
  | p :: ps => ',' :: ' ' :: (p.text ++ restText ps)

end

/-! ## The end of a phrase -/

/-- What is left from the first mark on that no parenthesis encloses, where `depth` parentheses are
open already. -/
def after : Nat → List Char → List Char
  | _, [] => []
  | depth, c :: cs =>
    if c = '(' then after (depth + 1) cs
    else if depth = 0 ∧ isMark c then c :: cs
    else if c = ')' then after (depth - 1) cs
    else after depth cs

variable {depth : Nat} {chars rest : List Char}

theorem after_cons {c : Char} (h : isMark c = false) : after depth (c :: rest) = after depth rest := by
  have hopen : c ≠ '(' := by
    rintro rfl
    exact absurd h (by decide)
  have hclose : c ≠ ')' := by
    rintro rfl
    exact absurd h (by decide)
  simp [after, h, hopen, hclose]

theorem after_append (h : ∀ c ∈ chars, isMark c = false) :
    after depth (chars ++ rest) = after depth rest := by
  induction chars with
  | nil => rfl
  | cons c chars ih =>
    rw [List.cons_append, after_cons (h c List.mem_cons_self)]
    exact ih fun c hc => h c (List.mem_cons_of_mem _ hc)

theorem after_open : after depth ('(' :: rest) = after (depth + 1) rest := by simp [after]

theorem after_close : after (depth + 1) (')' :: rest) = after depth rest := by simp [after]

theorem after_comma : after (depth + 1) (',' :: rest) = after (depth + 1) rest := by simp [after]

mutual

/-- A phrase is passed over as a whole. -/
theorem after_text (depth : Nat) (rest : List Char) :
    ∀ p : Phrase, after depth (p.text ++ rest) = after depth rest
  | .word w => after_append w.plain.2.1
  | .call w ps => by
    rw [text, List.append_assoc, after_append w.plain.2.1, List.cons_append, after_open,
      List.append_assoc, after_listText, List.singleton_append, after_close]
  | .slot p s => by
    have hslot : ∀ c ∈ ['.', s.letter], isMark c = false :=
      List.forall_mem_cons.mpr ⟨by decide, List.forall_mem_singleton.mpr s.letter_not_mark⟩
    rw [text, List.append_assoc, after_text depth _ p, after_append hslot]

theorem after_listText (depth : Nat) (rest : List Char) :
    ∀ ps : List Phrase, after (depth + 1) (listText ps ++ rest) = after (depth + 1) rest
  | [] => rfl
  | p :: ps => by rw [listText, List.append_assoc, after_text _ _ p, after_restText depth rest ps]

theorem after_restText (depth : Nat) (rest : List Char) :
    ∀ ps : List Phrase, after (depth + 1) (restText ps ++ rest) = after (depth + 1) rest
  | [] => rfl
  | p :: ps => by
    rw [restText, List.cons_append, after_comma, List.cons_append, after_cons (by decide),
      List.append_assoc, after_text _ _ p, after_restText depth rest ps]

end

/-- Two texts that begin with a phrase and go on with a mark begin with the same text. -/
theorem text_append_inj {p q : Phrase} {r s : List Char} (hr : after 0 r = r) (hs : after 0 s = s)
    (h : p.text ++ r = q.text ++ s) : p.text = q.text ∧ r = s := by
  have hrest : r = s :=
    calc r = after 0 (p.text ++ r) := by rw [after_text, hr]
      _ = after 0 (q.text ++ s) := by rw [h]
      _ = s := by rw [after_text, hs]
  subst hrest
  exact ⟨List.append_cancel_right h, rfl⟩

theorem after_restText_self (ps : List Phrase) : after 0 (restText ps) = restText ps := by
  cases ps <;> simp [restText, after, isMark]

/-! ## Reading phrases -/

theorem text_ne_nil (p : Phrase) : p.text ≠ [] := by
  cases p with
  | word w => exact w.plain.1
  | call w ps => simp [text]
  | slot p s => simp [text]

/-- A word with arguments is told apart from a phrase with a slot by its end. -/
theorem text_call_ne_slot (w : Word) (ps : List Phrase) (p : Phrase) (s : Slot) :
    (call w ps).text ≠ (slot p s).text := by
  intro h
  have hends : (w.chars ++ '(' :: listText ps) ++ [')'] = (p.text ++ ['.']) ++ [s.letter] := by
    simpa [text] using h
  have hlast := (List.append_inj' hends rfl).2
  have hmark := s.letter_not_mark
  rw [← (List.cons.inj hlast).1] at hmark
  cases hmark

theorem text_word_ne_call (v w : Word) (ps : List Phrase) : (word v).text ≠ (call w ps).text := by
  intro h
  apply v.open_not_mem
  rw [show v.chars = _ from h, text]
  simp

theorem call_text_inj {v w : Word} {ps qs : List Phrase} (h : (call v ps).text = (call w qs).text) :
    v = w ∧ listText ps = listText qs := by
  have hopen : ∀ {u : Word}, ∀ c ∈ u.chars, (!isMark c) = true := by
    intro u c hc
    rw [u.plain.2.1 c hc]
    rfl
  have hmark : ∀ {rest : List Char}, ∀ c ∈ ('(' :: rest).head?, (!isMark c) = false := by
    intro rest c hc
    cases hc
    rfl
  simp only [text] at h
  obtain ⟨hword, hrest⟩ := append_inj_of_forall hopen hopen hmark hmark h
  exact ⟨Word.ext hword, List.append_cancel_right (List.cons.inj hrest).2⟩

mutual

/-- The text of a phrase determines it. -/
theorem text_inj : ∀ p q : Phrase, p.text = q.text → p = q
  | .word v, q, h => by
    cases q with
    | word w => exact congrArg word (Word.ext h)
    | call w ps => exact absurd h (text_word_ne_call v w ps)
    | slot q s => exact absurd h (v.ne_append_slot _ s)
  | .call v ps, q, h => by
    cases q with
    | word w => exact absurd h.symm (text_word_ne_call w v ps)
    | call w qs =>
      obtain ⟨rfl, hlist⟩ := call_text_inj h
      rw [listText_inj ps qs hlist]
    | slot q s => exact absurd h (text_call_ne_slot v ps q s)
  | .slot p s, q, h => by
    cases q with
    | word w => exact absurd h.symm (w.ne_append_slot _ s)
    | call w qs => exact absurd h.symm (text_call_ne_slot w qs p s)
    | slot q s' =>
      obtain ⟨hp, hs⟩ := List.append_inj' h rfl
      rw [text_inj p q hp, Slot.letter_inj (List.cons.inj (List.cons.inj hs).2).1]

theorem listText_inj : ∀ ps qs : List Phrase, listText ps = listText qs → ps = qs
  | [], qs, h => by
    cases qs with
    | nil => rfl
    | cons q qs => exact absurd (List.append_eq_nil_iff.mp h.symm).1 q.text_ne_nil
  | p :: ps, qs, h => by
    cases qs with
    | nil => exact absurd (List.append_eq_nil_iff.mp h).1 p.text_ne_nil
    | cons q qs =>
      obtain ⟨hp, hps⟩ := text_append_inj (after_restText_self ps) (after_restText_self qs) h
      rw [text_inj p q hp, restText_inj ps qs hps]

theorem restText_inj : ∀ ps qs : List Phrase, restText ps = restText qs → ps = qs
  | [], qs, h => by
    cases qs with
    | nil => rfl
    | cons q qs => cases h
  | p :: ps, qs, h => by
    cases qs with
    | nil => cases h
    | cons q qs =>
      have hrest := (List.cons.inj (List.cons.inj h).2).2
      obtain ⟨hp, hps⟩ := text_append_inj (after_restText_self ps) (after_restText_self qs) hrest
      rw [text_inj p q hp, restText_inj ps qs hps]

end

end Phrase

end Stackless
