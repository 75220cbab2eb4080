import RegularLanguages.Dump
import RegularLanguages.Proofs.CharClass.Text

/-!
# Dumps are read back

Nothing in a dump is quoted, and the text of a class may hold blanks, line breaks, digits and arrows.
Still each part of it is `Delimited`: where it ends can be told from the part alone, whatever stands
behind it. A number ends where no digit follows, and the text of a class shows its own end. A line
that does not begin with the blank of an edge ends a paragraph, so the texts of paragraphs one after
another are those of no other paragraphs.
-/

namespace RegularLanguages

namespace Dump

/-- Where a text of `f` ends, and what it is the text of, does not depend on what stands behind. -/
def Delimited {α : Type} (P : α → Prop) (f : α → List Char) : Prop :=
  ∀ a b x y, P a → P b → f a ++ x = f b ++ y → a = b ∧ x = y

section Lists

variable {α : Type} {P : α → Prop} {f : α → List Char}

/-- Texts in a row and a character that none of them begins with. -/
theorem Delimited.list (hf : Delimited P f) {stop : Char}
    (hstart : ∀ a, ∃ c rest, f a = c :: rest ∧ c ≠ stop) :
    Delimited (fun as : List α => ∀ a ∈ as, P a) fun as => as.flatMap f ++ [stop] := by
  intro as bs x y has hbs h
  dsimp only at h
  induction as generalizing bs with
  | nil =>
    cases bs with
    | nil => exact ⟨rfl, List.append_cancel_left h⟩
    | cons b bs =>
      obtain ⟨c, rest, hc, hne⟩ := hstart b
      rw [List.flatMap_cons, hc] at h
      exact absurd (List.cons.inj h).1.symm hne
  | cons a as ih =>
    cases bs with
    | nil =>
      obtain ⟨c, rest, hc, hne⟩ := hstart a
      rw [List.flatMap_cons, hc] at h
      exact absurd (List.cons.inj h).1 hne
    | cons b bs =>
      obtain ⟨ha, has'⟩ := List.forall_mem_cons.1 has
      obtain ⟨hb, hbs'⟩ := List.forall_mem_cons.1 hbs
      simp only [List.flatMap_cons, List.append_assoc] at h ih
      obtain ⟨rfl, hrest⟩ := hf a b _ _ ha hb h
      obtain ⟨rfl, hxy⟩ := ih bs has' hbs' hrest
      exact ⟨rfl, hxy⟩

/-- Texts in a row up to the end. -/
theorem Delimited.flatMap_inj (hf : Delimited P f) (hne : ∀ a, f a ≠ []) {as bs : List α}
    (has : ∀ a ∈ as, P a) (hbs : ∀ b ∈ bs, P b) (h : as.flatMap f = bs.flatMap f) : as = bs := by
  induction as generalizing bs with
  | nil =>
    cases bs with
    | nil => rfl
    | cons b bs => exact absurd (List.append_eq_nil_iff.1 h.symm).1 (hne b)
  | cons a as ih =>
    cases bs with
    | nil => exact absurd (List.append_eq_nil_iff.1 h).1 (hne a)
    | cons b bs =>
      obtain ⟨ha, has'⟩ := List.forall_mem_cons.1 has
      obtain ⟨hb, hbs'⟩ := List.forall_mem_cons.1 hbs
      rw [List.flatMap_cons, List.flatMap_cons] at h
      obtain ⟨rfl, hrest⟩ := hf a b _ _ ha hb h
      rw [ih has' hbs' hrest]

end Lists

/-! ## Numbers -/

/-- A number ends where no digit follows. -/
theorem number_append_inj {m n : Nat} {x y : List Char} {c d : Char} (hc : c.isDigit = false)
    (hd : d.isDigit = false) (h : number m ++ c :: x = number n ++ d :: y) :
    m = n ∧ c :: x = d :: y := by
  have hdigits : ∀ n, ∀ c ∈ number n, c.isDigit = true := fun n c hc =>
    Nat.isDigit_of_mem_toDigits (by decide) (by decide) hc
  have htake : ∀ (n : Nat) (c : Char) (x : List Char), c.isDigit = false →
      (number n ++ c :: x).takeWhile Char.isDigit = number n := fun n c x hc => by
    rw [List.takeWhile_append_of_pos (hdigits n), List.takeWhile_cons_of_neg (by simp [hc]),
      List.append_nil]
  have hnumber : number m = number n := by rw [← htake m c x hc, h, htake n d y hd]
  constructor
  · have hvalue := congrArg (Nat.ofDigitChars 10 · 0) hnumber
    simpa only [number, Nat.ofDigitChars_toDigits (b := 10) (by decide) (by decide)] using hvalue
  · rw [hnumber] at h
    exact List.append_cancel_left h

end Dump

/-! ## Classes -/

namespace CharClass

variable {k : CharClass}

/-- Only the empty class is shown in another way than in patterns. -/
theorem label_eq_text (h : ∃ c, c ∈ k) : k.label = k.text := by
  obtain ⟨c, hc⟩ := h
  exact if_neg fun hempty => not_mem_of_isEmpty hempty c hc

theorem delimited_text : Dump.Delimited Canonical text :=
  fun _ _ _ _ _ _ h => text_append_inj h

end CharClass

/-! ## Paragraphs -/

namespace Dump

/-- What a dump shows of a state: for each line of an edge the target and the class on it. -/
structure Paragraph where
  id : Nat
  isStart : Bool
  isAccept : Bool
  edges : List (Nat × CharClass)

def edgeText (e : Nat × CharClass) : List Char := edge e.1 e.2.text

namespace Paragraph

def text (p : Paragraph) : List Char :=
  header p.id p.isStart p.isAccept ++ (p.edges.flatMap edgeText ++ ['\n'])

/-- The classes are stored canonically. -/
def Canonical (p : Paragraph) : Prop := ∀ e ∈ p.edges, e.2.Canonical

end Paragraph

/-- The characters between the parts of an edge, spelt out. -/
theorem edgeText_eq (t : Nat) (k : CharClass) : edgeText (t, k) =
    ' ' :: ' ' :: '-' :: '-' :: '>' :: ' ' ::
      (number t ++ ' ' :: 'o' :: 'n' :: ' ' :: (k.text ++ ['\n'])) := by
  have harrow : "  --> ".toList = [' ', ' ', '-', '-', '>', ' '] := by decide
  have hon : " on ".toList = [' ', 'o', 'n', ' '] := by decide
  unfold edgeText edge
  rw [harrow, hon]
  simp only [List.append_assoc, List.cons_append, List.nil_append]

theorem delimited_edgeText : Delimited (fun e => e.2.Canonical) edgeText := by
  intro ⟨t, k⟩ ⟨t', k'⟩ x y hk hk' h
  simp only [edgeText_eq, List.append_assoc, List.cons_append, List.cons.injEq, true_and] at h
  obtain ⟨rfl, hon⟩ := number_append_inj (by decide) (by decide) h
  simp only [List.cons.injEq, true_and] at hon
  obtain ⟨rfl, hline⟩ := CharClass.delimited_text k k' _ _ hk hk' hon
  exact ⟨rfl, (List.cons.inj hline).2⟩

/-- What a header shows of the roles. -/
def rolesText (s a : Bool) : List Char :=
  (if s then " (start)".toList else []) ++ (if a then " (accept)".toList else [])

/-- The roles are read off the first characters that differ. -/
theorem rolesText_append_inj {s s' a a' : Bool} {x y : List Char}
    (h : rolesText s a ++ '\n' :: x = rolesText s' a' ++ '\n' :: y) : s = s' ∧ a = a' ∧ x = y := by
  have hstart : " (start)".toList = [' ', '(', 's', 't', 'a', 'r', 't', ')'] := by decide
  have haccept : " (accept)".toList = [' ', '(', 'a', 'c', 'c', 'e', 'p', 't', ')'] := by decide
  rw [rolesText, rolesText, hstart, haccept] at h
  cases s <;> cases s' <;> cases a <;> cases a' <;> simp at h ⊢
  all_goals exact h

theorem header_append_inj {id id' : Nat} {s s' a a' : Bool} {x y : List Char}
    (h : header id s a ++ x = header id' s' a' ++ y) : id = id' ∧ s = s' ∧ a = a' ∧ x = y := by
  have hheader : ∀ id s a z, header id s a ++ z =
      "State ".toList ++ (number id ++ ':' :: (rolesText s a ++ '\n' :: z)) := by
    intro id s a z
    unfold header rolesText
    simp only [List.append_assoc, List.cons_append, List.nil_append]
  rw [hheader, hheader] at h
  obtain ⟨rfl, hroles⟩ := number_append_inj (by decide) (by decide) (List.append_cancel_left h)
  exact ⟨rfl, rolesText_append_inj (List.cons.inj hroles).2⟩

theorem delimited_paragraph : Delimited Paragraph.Canonical Paragraph.text := by
  intro p q x y hp hq h
  obtain ⟨id, s, a, es⟩ := p
  obtain ⟨id', s', a', es'⟩ := q
  simp only [Paragraph.text, List.append_assoc] at h
  obtain ⟨rfl, rfl, rfl, hlines⟩ := header_append_inj h
  have hstart : ∀ e, ∃ c rest, edgeText e = c :: rest ∧ c ≠ '\n' := fun e =>
    ⟨' ', _, rfl, by decide⟩
  rw [← List.append_assoc, ← List.append_assoc] at hlines
  obtain ⟨rfl, hxy⟩ := delimited_edgeText.list hstart es es' x y hp hq hlines
  exact ⟨rfl, hxy⟩

/-- The text of a dump tells its paragraphs. -/
theorem paragraphs_inj {ps qs : List Paragraph} (hps : ∀ p ∈ ps, p.Canonical)
    (hqs : ∀ q ∈ qs, q.Canonical) (h : ps.flatMap Paragraph.text = qs.flatMap Paragraph.text) :
    ps = qs :=
  delimited_paragraph.flatMap_inj (fun p hp => by simp [Paragraph.text] at hp) hps hqs h

end Dump

end RegularLanguages
