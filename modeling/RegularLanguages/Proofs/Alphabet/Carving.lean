import Mathlib.Data.List.Forall2
import RegularLanguages.Proofs.Alphabet.Coarsest
import RegularLanguages.Proofs.CharClass.StoredForm

/-!
# Alphabets carved by blocks

Classes that do not overlap, such as the blocks of another alphabet, never cut what an earlier one
has cut off. So refining the trivial alphabet for one after another carves a block for each class
that is new out of what is left, which stays the last block: `carve` is the list of all of them. In
the order in which the classes come, the blocks are numbered (`introduces_carve`), and carving once
more by these blocks, in any order that introduces them in the same way, gives the same blocks,
stored in the same form (`Carved.carve_eq`).
-/

namespace RegularLanguages

namespace Alphabet

/-! ## Numbers that come up in order -/

/-- The numbers up to `n` come up in order: a number is one of the `j` that have come up before, or
the next one. When all below `n` have come up, `n` may come as often as it likes. After `ss`, there
are `j'` numbers that have come up. -/
inductive Introduces (n : Nat) : Nat → List Nat → Nat → Prop where
  | nil (j : Nat) : Introduces n j [] j
  | old {j j' s : Nat} {ss : List Nat} :
      s < j → Introduces n j ss j' → Introduces n j (s :: ss) j'
  | new {j j' : Nat} {ss : List Nat} :
      j < n → Introduces n (j + 1) ss j' → Introduces n j (j :: ss) j'
  | last {j' : Nat} {ss : List Nat} : Introduces n n ss j' → Introduces n n (n :: ss) j'

variable {n i j : Nat} {ss ts : List Nat}

theorem Introduces.exists_append (h : Introduces n i (ss ++ ts) j) :
    ∃ k, Introduces n i ss k ∧ Introduces n k ts j := by
  induction ss generalizing i with
  | nil => exact ⟨i, .nil i, h⟩
  | cons s rest ih =>
    cases h with
    | old hs h =>
      obtain ⟨k, hrest, hts⟩ := ih h
      exact ⟨k, .old hs hrest, hts⟩
    | new hi h =>
      obtain ⟨k, hrest, hts⟩ := ih h
      exact ⟨k, .new hi hrest, hts⟩
    | last h =>
      obtain ⟨k, hrest, hts⟩ := ih h
      exact ⟨k, .last hrest, hts⟩

theorem Introduces.append {k : Nat} (h : Introduces n i ss j) (h' : Introduces n j ts k) :
    Introduces n i (ss ++ ts) k := by
  induction h with
  | nil => exact h'
  | old hs _ ih => exact .old hs (ih h')
  | new hi _ ih => exact .new hi (ih h')
  | last _ ih => exact .last (ih h')

/-- What comes up between `i` and `j`. -/
structure Between (n i : Nat) (ss : List Nat) (j : Nat) : Prop where
  le : i ≤ j
  mem : ∀ s, i ≤ s → s < j → s ∈ ss
  lt : ∀ s ∈ ss, s < j ∨ (s = n ∧ j = n)

theorem Introduces.between (h : Introduces n i ss j) : Between n i ss j := by
  induction h with
  | nil j => exact ⟨Nat.le_refl j, fun s hle hlt => by omega, nofun⟩
  | @old i j s ss hs _ ih =>
    refine ⟨ih.le, fun t hi hj => List.mem_cons_of_mem _ (ih.mem t hi hj), fun t ht => ?_⟩
    rcases List.mem_cons.1 ht with rfl | ht
    · exact .inl (Nat.lt_of_lt_of_le hs ih.le)
    · exact ih.lt t ht
  | @new i j ss _ _ ih =>
    refine ⟨Nat.le_of_succ_le ih.le, fun t hi hj => ?_, fun t ht => ?_⟩
    · by_cases hti : t = i
      · exact hti ▸ List.mem_cons_self ..
      · exact List.mem_cons_of_mem _ (ih.mem t (by omega) hj)
    · rcases List.mem_cons.1 ht with rfl | ht
      · exact .inl ih.le
      · exact ih.lt t ht
  | @last j ss _ ih =>
    refine ⟨ih.le, fun t hi hj => List.mem_cons_of_mem _ (ih.mem t hi hj), fun t ht => ?_⟩
    rcases List.mem_cons.1 ht with rfl | ht
    · have hle := ih.le
      omega
    · exact ih.lt t ht

/-- In increasing order numbers come up as they should. -/
theorem Between.introduces (h : Between n i ss j) (hj : j ≤ n) (hss : ss.Pairwise (· < ·)) :
    Introduces n i ss j := by
  induction ss generalizing i with
  | nil =>
    have hij : ¬i < j := fun hlt => nomatch h.mem i (Nat.le_refl i) hlt
    exact Nat.le_antisymm h.le (Nat.not_lt.1 hij) ▸ .nil i
  | cons s rest ih =>
    obtain ⟨hs, hrest⟩ := List.pairwise_cons.1 hss
    have hlt : ∀ t ∈ rest, t < j ∨ (t = n ∧ j = n) := fun t ht => h.lt t (List.mem_cons_of_mem _ ht)
    by_cases hsi : s < i
    · refine .old hsi (ih ⟨h.le, fun t hi htj => ?_, hlt⟩ hrest)
      exact (List.mem_cons.1 (h.mem t hi htj)).resolve_left (by omega)
    · by_cases hij : i < j
      · obtain rfl : i = s := by
          rcases List.mem_cons.1 (h.mem i (Nat.le_refl i) hij) with heq | hi
          · exact heq
          · exact absurd (hs i hi) hsi
        refine .new (Nat.lt_of_lt_of_le hij hj) (ih ⟨hij, fun t hi htj => ?_, hlt⟩ hrest)
        exact (List.mem_cons.1 (h.mem t (by omega) htj)).resolve_left (by omega)
      · -- nothing is left to come up but the last number
        obtain ⟨hsn, hjn⟩ := (h.lt s (List.mem_cons_self ..)).resolve_left (by omega)
        have hin : i = n := hjn ▸ Nat.le_antisymm h.le (Nat.not_lt.1 hij)
        subst hsn hin hjn
        exact .last (ih ⟨Nat.le_refl _, fun t hi hti => by omega, hlt⟩ hrest)

/-- Sorting numbers row by row keeps the order in which they come up. -/
theorem introduces_flatten {rows rows' : List (List Nat)}
    (h : List.Forall₂ (fun xs ys => ys.Pairwise (· < ·) ∧ ∀ s, s ∈ ys ↔ s ∈ xs) rows rows')
    (hrows : Introduces n i rows.flatten j) (hj : j ≤ n) : Introduces n i rows'.flatten j := by
  induction h generalizing i with
  | nil => exact hrows
  | @cons xs ys _ _ hrow _ ih =>
    obtain ⟨hsorted, hmem⟩ := hrow
    obtain ⟨k, hxs, hrest⟩ := hrows.exists_append
    have hbetween := hxs.between
    have hys : Between n i ys k :=
      ⟨hbetween.le, fun s hi hk => (hmem s).2 (hbetween.mem s hi hk),
        fun s hs => hbetween.lt s ((hmem s).1 hs)⟩
    exact (hys.introduces (Nat.le_trans hrest.between.le hj) hsorted).append (ih hrest)

/-! ## Carving -/

/-- The blocks that the classes, one after another, cut off from a class, and what is left of it. -/
def carve : CharClass → List CharClass → List CharClass
  | r, [] => [r]
  | r, k :: ks =>
    match divide k r with
    | [inside, outside] => inside :: carve outside ks
    | _ => carve r ks

/-- The classes are the same or have no character in common. -/
def Separate (k l : CharClass) : Prop := k = l ∨ ∀ c ∈ k, c ∉ l

variable {r k : CharClass} {ks done bs : List CharClass} {c : Char}

theorem carve_cons_of_resolved (h : divide k r = [r]) : carve r (k :: ks) = carve r ks := by
  rw [carve, h]

theorem carve_cons_of_straddled (h : divide k r = [r.inter k, r.diff (r.inter k)]) :
    carve r (k :: ks) = r.inter k :: carve (r.diff (r.inter k)) ks := by
  rw [carve, h]

theorem carve_eq_singleton (h : ∀ k ∈ ks, (∀ c ∈ r, c ∈ k) ∨ ∀ c ∈ r, c ∉ k) :
    carve r ks = [r] := by
  induction ks with
  | nil => rfl
  | cons k rest ih =>
    rw [List.forall_mem_cons] at h
    rw [carve_cons_of_resolved (divide_eq_self h.1), ih h.2]

/-- Once a class has all that is left, nothing more is cut off. -/
theorem carve_eq_of_forall_mem (hks : ∀ l ∈ ks, Separate k l) (h : ∀ c ∈ r, c ∈ k) :
    carve r ks = [r] :=
  carve_eq_singleton fun l hl => by
    rcases hks l hl with rfl | hsep
    · exact .inl h
    · exact .inr fun c hc => hsep c (h c hc)

/-- Carving loses and adds nothing. -/
theorem mem_carve : (∃ p ∈ carve r ks, c ∈ p) ↔ c ∈ r := by
  induction ks generalizing r with
  | nil => simp [carve]
  | cons k rest ih =>
    rcases divide_cases k r with ⟨hdiv, -⟩ | ⟨hdiv, -⟩
    · rw [carve_cons_of_resolved hdiv, ih]
    · simp only [carve_cons_of_straddled hdiv, List.mem_cons, exists_eq_or_imp, ih,
        CharClass.mem_diff, CharClass.mem_inter]
      by_cases hc : c ∈ k <;> simp [hc]

/-- Refining for a class that resolves all blocks but the last divides the last one. -/
theorem refine_append (h : Resolves ⟨done⟩ k) (r : CharClass) :
    (refine ⟨done ++ [r]⟩ k).1 = ⟨done ++ divide k r⟩ := by
  have hdone : done.flatMap (divide k) = done :=
    (blocks_refine ⟨done⟩ k).symm.trans (congrArg blocks (refine_eq_self h))
  have hblocks : (refine ⟨done ++ [r]⟩ k).1.blocks = (done ++ [r]).flatMap (divide k) :=
    blocks_refine ..
  rw [List.flatMap_append, hdone, List.flatMap_singleton] at hblocks
  exact congrArg mk hblocks

/-- Classes that resolve all blocks but the last carve the last one. -/
theorem refineAll_carve (done : List CharClass) (hdone : ∀ k ∈ ks, Resolves ⟨done⟩ k)
    (hks : ks.Pairwise Separate) : refineAll ⟨done ++ [r]⟩ ks = ⟨done ++ carve r ks⟩ := by
  induction ks generalizing done r with
  | nil => rfl
  | cons k rest ih =>
    obtain ⟨hk, hrest⟩ := List.pairwise_cons.1 hks
    rw [List.forall_mem_cons] at hdone
    have hstep : refineAll ⟨done ++ [r]⟩ (k :: rest) = refineAll ⟨done ++ divide k r⟩ rest :=
      congrArg (refineAll · rest) (refine_append hdone.1 r)
    rcases divide_cases k r with ⟨hdiv, -⟩ | ⟨hdiv, -⟩
    · rw [hstep, hdiv, carve_cons_of_resolved hdiv, ih done hdone.2 hrest]
    · -- the piece that was cut off lies inside the class, so what resolves the class resolves it
      rw [hstep, hdiv, carve_cons_of_straddled hdiv, List.append_cons done _ [_],
        List.append_cons done _ (carve _ _), ih (done ++ [r.inter k]) (fun l hl b hb => ?_) hrest]
      rcases List.mem_append.1 hb with hb | hb
      · exact hdone.2 l hl b hb
      · rw [List.mem_singleton.1 hb]
        rcases hk l hl with rfl | hsep
        · exact .inl fun c hc => (CharClass.mem_inter.1 hc).2
        · exact .inr fun c hc => hsep c (CharClass.mem_inter.1 hc).2

theorem refineAll_trivial (hks : ks.Pairwise Separate) :
    trivial.refineAll ks = ⟨carve .universal ks⟩ :=
  refineAll_carve [] (fun _ _ => nofun) hks

/-- Blocks as they are carved out of a class: dividing what is left by the next block cuts off this
block, stored in the same form. -/
inductive Carved : CharClass → List CharClass → Prop where
  | rest (r : CharClass) : Carved r [r]
  | cut {r b : CharClass} {bs : List CharClass} :
      divide b r = [b, r.diff b] → Carved (r.diff b) bs → Carved r (b :: bs)

/-- A piece that was cut off is cut off again. -/
theorem divide_inter (hin : ∃ c ∈ r, c ∈ k) (hout : ∃ c ∈ r, c ∉ k) :
    divide (r.inter k) r = [r.inter k, r.diff (r.inter k)] := by
  rcases divide_cases (r.inter k) r with ⟨-, hall | hnone⟩ | ⟨hdiv, -⟩
  · obtain ⟨c, hc, hck⟩ := hout
    exact absurd (CharClass.mem_inter.1 (hall c hc)).2 hck
  · obtain ⟨c, hc, hck⟩ := hin
    exact absurd (CharClass.mem_inter.2 ⟨hc, hck⟩) (hnone c hc)
  · rwa [CharClass.inter_inter_self] at hdiv

theorem carved_carve (r : CharClass) (ks : List CharClass) : Carved r (carve r ks) := by
  induction ks generalizing r with
  | nil => exact .rest r
  | cons k rest ih =>
    rcases divide_cases k r with ⟨hdiv, -⟩ | ⟨hdiv, hin, hout⟩
    · rw [carve_cons_of_resolved hdiv]
      exact ih r
    · rw [carve_cons_of_straddled hdiv]
      exact .cut (divide_inter hin hout) (ih _)

theorem Carved.length_pos (h : Carved r bs) : 0 < bs.length := by
  cases h <;> simp

theorem Carved.exists_mem (h : Carved r bs) (hc : c ∈ r) : ∃ b ∈ bs, c ∈ b := by
  induction h with
  | rest r => exact ⟨r, List.mem_singleton_self r, hc⟩
  | @cut r b bs _ _ ih =>
    by_cases hcb : c ∈ b
    · exact ⟨b, List.mem_cons_self .., hcb⟩
    · obtain ⟨b', hb', hc'⟩ := ih (CharClass.mem_diff.2 ⟨hc, hcb⟩)
      exact ⟨b', List.mem_cons_of_mem _ hb', hc'⟩

/-! ## The numbers of the blocks -/

theorem Partition.index_eq_length {b : CharClass} (h : Partition ⟨done ++ b :: bs⟩) (hc : c ∈ b) :
    index ⟨done ++ b :: bs⟩ c = done.length :=
  h.index_eq (by simp) hc

theorem Partition.length_le_index_iff (h : Partition ⟨done ++ bs⟩) :
    done.length ≤ index ⟨done ++ bs⟩ c ↔ ∃ b ∈ bs, c ∈ b := by
  constructor
  · intro hle
    obtain ⟨b, hb, hc⟩ := h.mem_block_index c
    rw [List.getElem?_append_right hle] at hb
    exact ⟨b, List.mem_of_getElem? hb, hc⟩
  · rintro ⟨b, hb, hc⟩
    obtain ⟨s, hs⟩ := List.mem_iff_getElem?.1 hb
    have hget : (done ++ bs)[done.length + s]? = some b := by
      rwa [List.getElem?_append_right (Nat.le_add_right ..), Nat.add_sub_cancel_left]
    rw [h.index_eq hget hc]
    exact Nat.le_add_right ..

theorem Partition.exists_mem_of_carve (h : Partition ⟨done ++ carve r ks⟩) : ∃ c, c ∈ r := by
  obtain ⟨p, hp⟩ := List.exists_mem_of_length_pos (carved_carve r ks).length_pos
  obtain ⟨c, hc⟩ := h.inhabited p (List.mem_append_right _ hp)
  exact ⟨c, mem_carve.1 ⟨p, hp, hc⟩⟩

/-- The blocks that are carved are numbered in the order in which their classes come. -/
theorem introduces_carve (done : List CharClass) {num : CharClass → Nat}
    (h : Partition ⟨done ++ carve r ks⟩) (hks : ks.Pairwise Separate)
    (hinhabited : ∀ k ∈ ks, ∃ c, c ∈ k)
    (hnum : ∀ k ∈ ks, ∀ c ∈ k, index ⟨done ++ carve r ks⟩ c = num k)
    (hn : done.length + (carve r ks).length = n + 1) :
    Introduces n done.length (ks.map num) n := by
  induction ks generalizing done r with
  | nil =>
    have hlength : done.length = n := Nat.succ.inj hn
    exact hlength ▸ .nil _
  | cons k rest ih =>
    obtain ⟨hk, hrest⟩ := List.pairwise_cons.1 hks
    rw [List.forall_mem_cons] at hinhabited hnum
    rw [List.map_cons]
    rcases divide_cases k r with ⟨hdiv, hin | hout⟩ | ⟨hdiv, ⟨c, hc, hck⟩, -⟩
    · -- the class has all that is left, which is the last block
      rw [carve_cons_of_resolved hdiv] at h hnum hn
      have hintroduces := ih done h hrest hinhabited.2 hnum.2 hn
      obtain ⟨c, hc⟩ := h.exists_mem_of_carve
      rw [carve_eq_of_forall_mem hk hin] at h hnum hn
      have hlength : done.length = n := Nat.succ.inj hn
      rw [← hnum.1 c (hin c hc), h.index_eq_length hc]
      rw [hlength] at hintroduces ⊢
      exact .last hintroduces
    · -- the class has nothing of what is left
      rw [carve_cons_of_resolved hdiv] at h hnum hn
      obtain ⟨c, hc⟩ := hinhabited.1
      have hlt : num k < done.length := by
        rw [← hnum.1 c hc, ← Nat.not_le, h.length_le_index_iff, mem_carve]
        exact fun hcr => hout c hcr hc
      exact .old hlt (ih done h hrest hinhabited.2 hnum.2 hn)
    · rw [carve_cons_of_straddled hdiv] at h hnum hn
      rw [← hnum.1 c hck, h.index_eq_length (CharClass.mem_inter.2 ⟨hc, hck⟩)]
      have hlt : done.length < n := by
        have := (carved_carve (r.diff (r.inter k)) rest).length_pos
        simp only [List.length_cons] at hn
        omega
      rw [List.append_cons] at h hnum
      have hintroduces :=
        ih (done ++ [r.inter k]) h hrest hinhabited.2 hnum.2 (by simp at hn ⊢; omega)
      rw [List.length_append, List.length_singleton] at hintroduces
      exact .new hlt hintroduces

/-! ## Carving once more -/

/-- Carving by the blocks that were carved, in an order that introduces them as they are numbered,
gives them again. -/
theorem Carved.carve_eq (done : List CharClass) (hbs : Carved r bs) (h : Partition ⟨done ++ bs⟩)
    (hn : done.length + bs.length = n + 1) (hss : Introduces n i ss j) (hi : i = done.length)
    (hj : j = n) : carve r (ss.map (label ⟨done ++ bs⟩)) = bs := by
  induction hss generalizing done r bs with
  | nil j =>
    cases hbs with
    | rest => rfl
    | cut _ hrest =>
      have := hrest.length_pos
      simp only [List.length_cons] at hn
      omega
  | @old i j s ss hs _ ih =>
    have hout : ∀ c ∈ r, c ∉ label ⟨done ++ bs⟩ s := fun c hc hcs => by
      have hle := h.length_le_index_iff.2 (hbs.exists_mem hc)
      rw [h.mem_label.1 hcs] at hle
      omega
    rw [List.map_cons, carve_cons_of_resolved (divide_eq_self (.inr hout))]
    exact ih done hbs h hn hi hj
  | @new i j ss hlt _ ih =>
    subst hi
    cases hbs with
    | rest =>
      simp only [List.length_singleton] at hn
      omega
    | @cut _ b bs hdiv hrest =>
      have hlabel : label ⟨done ++ b :: bs⟩ done.length = b := by simp [label]
      rw [List.map_cons, hlabel, carve, hdiv]
      rw [List.append_cons] at h ⊢
      exact congrArg (b :: ·) (ih (done ++ [b]) hrest h (by simp at hn ⊢; omega) (by simp) hj)
  | @last j ss hrest ih =>
    subst hi
    cases hbs with
    | rest =>
      have hlabel : label ⟨done ++ [r]⟩ done.length = r := by simp [label]
      rw [List.map_cons, hlabel, carve_cons_of_resolved (divide_eq_self (.inl fun _ hc => hc))]
      exact ih done (.rest r) h hn rfl hj
    | cut _ hrest =>
      have := hrest.length_pos
      simp only [List.length_cons] at hn
      omega

end Alphabet

end RegularLanguages
