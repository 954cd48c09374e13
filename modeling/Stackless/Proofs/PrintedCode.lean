import Stackless.Machine.Code
import Stackless.Proofs.NumberText

/-!
# Printed code

The text of a term is the text of a phrase (`Term.text_toList`), and so is the text of an action, up
to the semicolon that ends it (`Action.text_toList`). Different terms are different phrases, because
the words that begin them are different and the text of a number is none of these words. So the text
of terms, actions and code determines them (`Code.text_determines`).
-/

namespace Stackless

/-- The words that terms and actions begin with. -/
inductive Keyword where
  | entity
  | eventEntity
  | emptyArray
  | array
  | global
  | item
  | last
  | count
  | slice
  | append
  | add
  | subtract
  | setGlobal
  | setEntity
  | setGlobalAt
  | setEntityAt
  deriving DecidableEq

namespace Keyword

def text : Keyword → String
  | .entity => "Entity"
  | .eventEntity => "Event Entity"
  | .emptyArray => "Empty Array"
  | .array => "Array"
  | .global => "Global"
  | .item => "Value In Array"
  | .last => "Last Of"
  | .count => "Count Of"
  | .slice => "Array Slice"
  | .append => "Append To Array"
  | .add => "Add"
  | .subtract => "Subtract"
  | .setGlobal => "Set Global Variable"
  | .setEntity => "Set Entity Variable"
  | .setGlobalAt => "Set Global Variable At Index"
  | .setEntityAt => "Set Entity Variable At Index"

def all : List Keyword :=
  [.entity, .eventEntity, .emptyArray, .array, .global, .item, .last, .count, .slice, .append, .add,
    .subtract, .setGlobal, .setEntity, .setGlobalAt, .setEntityAt]

/-- A keyword is found by its text. -/
theorem find?_text (k : Keyword) : all.find? (·.text = k.text) = some k := by
  cases k <;> decide

theorem plain (k : Keyword) : Plain k.text.toList := by
  cases k <;> exact plain_of_all (by simp [text]) rfl

def word (k : Keyword) : Word := ⟨k.text.toList, k.plain⟩

@[simp] theorem word_inj {k k' : Keyword} : k.word = k'.word ↔ k = k' := by
  refine ⟨fun h => ?_, congrArg word⟩
  have htext : k.text = k'.text := String.toList_inj.mp (congrArg Word.chars h)
  apply Option.some.inj
  rw [← find?_text k, htext, find?_text k']

theorem exists_head (k : Keyword) :
    ∃ c, k.text.toList.head? = some c ∧ c.isUpper = true ∧ c ≠ 'N' := by
  cases k <;> exact ⟨_, rfl, by decide, by decide⟩

end Keyword

/-! ## Words of terms -/

/-- A number is no keyword: the only capital letter it begins with is the one of NaN. -/
theorem Number.isUpper_head {x : Number} {c : Char} (hc : x.text.toList.head? = some c)
    (hupper : c.isUpper = true) : c = 'N' := by
  rw [text_toList] at hc
  cases hsign : x.isNegative <;> rw [hsign] at hc
  · cases x with
    | nan =>
      cases hc
      rfl
    | infinite s =>
      cases hc
      exact absurd hupper (by decide)
    | finite s n h =>
      obtain ⟨c', cs, heq, hdigit⟩ := exists_positional_eq_cons (shortest n)
      have hhead : some c' = some c := by
        rw [← hc, unsignedText, heq]
        rfl
      cases hhead
      rw [isUpper_of_isDigit hdigit] at hupper
      cases hupper
  · cases hc
    exact absurd hupper (by decide)

@[simp] theorem Number.word_ne_keyword (x : Number) (k : Keyword) : x.word ≠ k.word := by
  intro h
  obtain ⟨c, hc, hupper, hne⟩ := k.exists_head
  have hx : x.text.toList = k.text.toList := congrArg Word.chars h
  exact hne (isUpper_head (hx ▸ hc) hupper)

@[simp] theorem Keyword.word_ne_number (k : Keyword) (x : Number) : k.word ≠ x.word :=
  (x.word_ne_keyword k).symm

/-- A natural number as a word. -/
def numeral (n : Nat) : Word :=
  ⟨Nat.toDigits 10 n, plain_of_digits Nat.toDigits_ne_nil fun _ h => .inl (isDigit_of_mem_toDigits h)⟩

@[simp] theorem numeral_inj {m n : Nat} : numeral m = numeral n ↔ m = n :=
  ⟨fun h => toDigits_inj (congrArg Word.chars h), congrArg numeral⟩

theorem Slot.plain_letter (s : Slot) : Plain [s.letter] := by
  have hpoint : '.' ≠ s.letter := by
    intro h
    have hupper := s.isUpper_letter
    rw [← h] at hupper
    cases hupper
  exact ⟨List.cons_ne_nil _ _, List.forall_mem_singleton.mpr s.letter_not_mark,
    .inl fun h => hpoint (List.mem_singleton.mp h)⟩

/-- The name of a slot as a word. -/
def Slot.word (s : Slot) : Word := ⟨[s.letter], s.plain_letter⟩

@[simp] theorem Slot.word_inj {s t : Slot} : s.word = t.word ↔ s = t := by
  refine ⟨fun h => Slot.letter_inj ?_, congrArg Slot.word⟩
  exact (List.cons.inj (congrArg Word.chars h)).1

theorem Slot.text_toList (s : Slot) : s.text.toList = [s.letter] := by
  simp [text, letter]

/-! ## Terms as phrases -/

namespace Term

mutual

/-- The phrase that is written for a term. -/
def phrase : Term → Phrase
  | .number x => .word x.word
  | .entity id => .call Keyword.entity.word [.word (numeral id)]
  | .eventEntity => .word Keyword.eventEntity.word
  | .emptyArray => .word Keyword.emptyArray.word
  | .array items => .call Keyword.array.word (phrases items)
  | .global s => .slot (.word Keyword.global.word) s
  | .entitySlot t s => .slot t.phrase s
  | .item a i => .call Keyword.item.word [a.phrase, i.phrase]
  | .last a => .call Keyword.last.word [a.phrase]
  | .count a => .call Keyword.count.word [a.phrase]
  | .slice a i n => .call Keyword.slice.word [a.phrase, i.phrase, n.phrase]
  | .append a b => .call Keyword.append.word [a.phrase, b.phrase]
  | .add a b => .call Keyword.add.word [a.phrase, b.phrase]
  | .subtract a b => .call Keyword.subtract.word [a.phrase, b.phrase]

def phrases : List Term → List Phrase
  | [] => []
  | t :: ts => t.phrase :: phrases ts

end

mutual

-- the left sides are given by `change`, because the equations of `text` evaluate the texts of numbers
theorem text_toList : ∀ t : Term, t.text.toList = t.phrase.text
  | .number x => (Number.word_chars x).symm
  | .entity id => by
    change ("Entity(" ++ toString id ++ ")").toList = _
    simp [phrase, Phrase.text, Phrase.listText, Phrase.restText, Keyword.word, Keyword.text, numeral]
  | .eventEntity => rfl
  | .emptyArray => rfl
  | .array items => by
    change ("Array(" ++ textList items ++ ")").toList = _
    simp [phrase, Phrase.text, Keyword.word, Keyword.text, textList_toList items]
  | .global s => by
    change ("Global." ++ s.text).toList = _
    simp [phrase, Phrase.text, Keyword.word, Keyword.text, s.text_toList]
  | .entitySlot t s => by
    change (t.text ++ "." ++ s.text).toList = _
    simp [phrase, Phrase.text, text_toList t, s.text_toList]
  | .item a i => by
    change ("Value In Array(" ++ a.text ++ ", " ++ i.text ++ ")").toList = _
    simp [phrase, Phrase.text, Phrase.listText, Phrase.restText, Keyword.word, Keyword.text,
      text_toList a, text_toList i]
  | .last a => by
    change ("Last Of(" ++ a.text ++ ")").toList = _
    simp [phrase, Phrase.text, Phrase.listText, Phrase.restText, Keyword.word, Keyword.text,
      text_toList a]
  | .count a => by
    change ("Count Of(" ++ a.text ++ ")").toList = _
    simp [phrase, Phrase.text, Phrase.listText, Phrase.restText, Keyword.word, Keyword.text,
      text_toList a]
  | .slice a i n => by
    change ("Array Slice(" ++ a.text ++ ", " ++ i.text ++ ", " ++ n.text ++ ")").toList = _
    simp [phrase, Phrase.text, Phrase.listText, Phrase.restText, Keyword.word, Keyword.text,
      text_toList a, text_toList i, text_toList n]
  | .append a b => by
    change ("Append To Array(" ++ a.text ++ ", " ++ b.text ++ ")").toList = _
    simp [phrase, Phrase.text, Phrase.listText, Phrase.restText, Keyword.word, Keyword.text,
      text_toList a, text_toList b]
  | .add a b => by
    change ("Add(" ++ a.text ++ ", " ++ b.text ++ ")").toList = _
    simp [phrase, Phrase.text, Phrase.listText, Phrase.restText, Keyword.word, Keyword.text,
      text_toList a, text_toList b]
  | .subtract a b => by
    change ("Subtract(" ++ a.text ++ ", " ++ b.text ++ ")").toList = _
    simp [phrase, Phrase.text, Phrase.listText, Phrase.restText, Keyword.word, Keyword.text,
      text_toList a, text_toList b]

theorem textList_toList : ∀ ts : List Term, (textList ts).toList = Phrase.listText (phrases ts)
  | [] => rfl
  | [t] => by
    change t.text.toList = _
    simp [phrases, Phrase.listText, Phrase.restText, text_toList t]
  | t :: u :: ts => by
    have hrest := textList_toList (u :: ts)
    rw [phrases, Phrase.listText] at hrest
    change (t.text ++ ", " ++ textList (u :: ts)).toList = _
    simp [phrases, Phrase.listText, Phrase.restText, text_toList t, hrest]

end

/-! ## Different terms are different phrases -/

theorem phrase_ne_global (t : Term) : t.phrase ≠ .word Keyword.global.word := by
  cases t <;> simp [phrase]

mutual

theorem phrase_inj : ∀ t u : Term, t.phrase = u.phrase → t = u
  | .number x, u, h => by
    cases u with
    | number y => exact congrArg number (Number.word_inj (Phrase.word.inj h))
    | _ => simp [phrase] at h
  | .entity id, u, h => by
    cases u with
    | entity id' => simpa [phrase] using h
    | _ => simp [phrase] at h
  | .eventEntity, u, h => by
    cases u with
    | eventEntity => rfl
    | _ => simp [phrase] at h
  | .emptyArray, u, h => by
    cases u with
    | emptyArray => rfl
    | _ => simp [phrase] at h
  | .array items, u, h => by
    cases u with
    | array items' => rw [phrases_inj items items' (Phrase.call.inj h).2]
    | _ => simp [phrase] at h
  | .global s, u, h => by
    cases u with
    | global s' => rw [(Phrase.slot.inj h).2]
    | entitySlot t s' => exact absurd (Phrase.slot.inj h).1.symm t.phrase_ne_global
    | _ => simp [phrase] at h
  | .entitySlot t s, u, h => by
    cases u with
    | global s' => exact absurd (Phrase.slot.inj h).1 t.phrase_ne_global
    | entitySlot u s' =>
      obtain ⟨ht, rfl⟩ := Phrase.slot.inj h
      rw [phrase_inj t u ht]
    | _ => simp [phrase] at h
  | .item a i, u, h => by
    cases u with
    | item b j =>
      simp only [phrase, Phrase.call.injEq, List.cons.injEq, and_true, true_and] at h
      rw [phrase_inj a b h.1, phrase_inj i j h.2]
    | _ => simp [phrase] at h
  | .last a, u, h => by
    cases u with
    | last b =>
      simp only [phrase, Phrase.call.injEq, List.cons.injEq, and_true, true_and] at h
      rw [phrase_inj a b h]
    | _ => simp [phrase] at h
  | .count a, u, h => by
    cases u with
    | count b =>
      simp only [phrase, Phrase.call.injEq, List.cons.injEq, and_true, true_and] at h
      rw [phrase_inj a b h]
    | _ => simp [phrase] at h
  | .slice a i n, u, h => by
    cases u with
    | slice b j m =>
      simp only [phrase, Phrase.call.injEq, List.cons.injEq, and_true, true_and] at h
      rw [phrase_inj a b h.1, phrase_inj i j h.2.1, phrase_inj n m h.2.2]
    | _ => simp [phrase] at h
  | .append a b, u, h => by
    cases u with
    | append c d =>
      simp only [phrase, Phrase.call.injEq, List.cons.injEq, and_true, true_and] at h
      rw [phrase_inj a c h.1, phrase_inj b d h.2]
    | _ => simp [phrase] at h
  | .add a b, u, h => by
    cases u with
    | add c d =>
      simp only [phrase, Phrase.call.injEq, List.cons.injEq, and_true, true_and] at h
      rw [phrase_inj a c h.1, phrase_inj b d h.2]
    | _ => simp [phrase] at h
  | .subtract a b, u, h => by
    cases u with
    | subtract c d =>
      simp only [phrase, Phrase.call.injEq, List.cons.injEq, and_true, true_and] at h
      rw [phrase_inj a c h.1, phrase_inj b d h.2]
    | _ => simp [phrase] at h

theorem phrases_inj : ∀ ts us : List Term, phrases ts = phrases us → ts = us
  | [], us, h => by
    cases us with
    | nil => rfl
    | cons u us => cases h
  | t :: ts, us, h => by
    cases us with
    | nil => cases h
    | cons u us =>
      obtain ⟨ht, hts⟩ := List.cons.inj h
      rw [phrase_inj t u ht, phrases_inj ts us hts]

end

theorem text_inj {t u : Term} (h : t.text = u.text) : t = u := by
  apply phrase_inj
  apply Phrase.text_inj
  rw [← text_toList, ← text_toList, h]

end Term

/-! ## Actions and code -/

namespace Action

/-- The phrase that is written for an action, before its semicolon. -/
def phrase : Action → Phrase
  | .store (.global s) v => .call Keyword.setGlobal.word [.word s.word, v.phrase]
  | .store (.entity t s) v => .call Keyword.setEntity.word [t.phrase, .word s.word, v.phrase]
  | .storeAt (.global s) i v =>
    .call Keyword.setGlobalAt.word [.word s.word, i.phrase, v.phrase]
  | .storeAt (.entity t s) i v =>
    .call Keyword.setEntityAt.word [t.phrase, .word s.word, i.phrase, v.phrase]

theorem text_toList (a : Action) : a.text.toList = a.phrase.text ++ [';'] := by
  cases a with
  | store place v =>
    cases place <;>
      simp [text, Place.actionName, Place.arguments, phrase, Phrase.text, Phrase.listText,
        Phrase.restText, Keyword.word, Keyword.text, Slot.word, Slot.text_toList, Term.text_toList]
  | storeAt place i v =>
    cases place <;>
      simp [text, Place.actionName, Place.arguments, phrase, Phrase.text, Phrase.listText,
        Phrase.restText, Keyword.word, Keyword.text, Slot.word, Slot.text_toList, Term.text_toList]

theorem phrase_inj {a b : Action} (h : a.phrase = b.phrase) : a = b := by
  -- the word that begins an action tells its kind and the kind of its place
  rcases a with ⟨s | ⟨t, s⟩, v⟩ | ⟨s | ⟨t, s⟩, i, v⟩ <;>
    rcases b with ⟨s' | ⟨t', s'⟩, v'⟩ | ⟨s' | ⟨t', s'⟩, i', v'⟩ <;>
    simp [phrase] at h
  · obtain ⟨rfl, hv⟩ := h
    rw [Term.phrase_inj v v' hv]
  · obtain ⟨ht, rfl, hv⟩ := h
    rw [Term.phrase_inj t t' ht, Term.phrase_inj v v' hv]
  · obtain ⟨rfl, hi, hv⟩ := h
    rw [Term.phrase_inj i i' hi, Term.phrase_inj v v' hv]
  · obtain ⟨ht, rfl, hi, hv⟩ := h
    rw [Term.phrase_inj t t' ht, Term.phrase_inj i i' hi, Term.phrase_inj v v' hv]

theorem eq_of_phrase_text_eq {a b : Action} (h : a.phrase.text = b.phrase.text) : a = b :=
  phrase_inj (Phrase.text_inj _ _ h)

theorem text_inj {a b : Action} (h : a.text = b.text) : a = b := by
  have htext : a.phrase.text ++ [';'] = b.phrase.text ++ [';'] := by
    rw [← text_toList, ← text_toList, h]
  exact eq_of_phrase_text_eq (List.append_cancel_right htext)

end Action

namespace Code

theorem text_cons_toList (a : Action) (c : Code) :
    (Code.text (a :: c)).toList = a.phrase.text ++ (';' :: '\n' :: c.text.toList) := by
  simp [text, Action.text_toList]

theorem text_inj : ∀ {c d : Code}, c.text = d.text → c = d := by
  intro c
  induction c with
  | nil =>
    intro d h
    cases d with
    | nil => rfl
    | cons b d =>
      have htext := congrArg String.toList h
      rw [text_cons_toList] at htext
      simp [text] at htext
  | cons a c ih =>
    intro d h
    have htext := congrArg String.toList h
    rw [text_cons_toList] at htext
    cases d with
    | nil => simp [text] at htext
    | cons b d =>
      rw [text_cons_toList] at htext
      obtain ⟨hphrase, hrest⟩ := Phrase.text_append_inj rfl rfl htext
      have hlines := (List.cons.inj (List.cons.inj hrest).2).2
      rw [Action.eq_of_phrase_text_eq hphrase, ih (String.toList_inj.mp hlines)]

/-- The texts of terms, actions and code determine them. Numbers are told apart like their bit
patterns, of which all that stand for NaN count as one. -/
theorem text_determines :
    (∀ t u : Term, t.text = u.text → t = u) ∧
    (∀ a b : Action, a.text = b.text → a = b) ∧
    (∀ c d : Code, c.text = d.text → c = d) ∧
    (∀ b c : UInt64, Number.ofBits b = Number.ofBits c ↔
      b = c ∨ Number.ofBits b = .nan ∧ Number.ofBits c = .nan) :=
  ⟨fun _ _ => Term.text_inj, fun _ _ => Action.text_inj, fun _ _ => text_inj, Number.ofBits_eq_iff⟩

end Code

end Stackless
