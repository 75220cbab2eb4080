import RegularLanguages.Alphabet
import RegularLanguages.Proofs.CharClass.Canonical

/-!
# Alphabets are partitions

A `Partition` is an alphabet whose blocks are inhabited and hold every character once. Refining
keeps this, and a character keeps its block up to the origins: `getElem?_origins` is what carries
the tables of a machine over to a refined alphabet.

`Resolves a k` says that no block of `a` straddles `k`; then the symbols of `k` are exactly the
blocks of its characters.
-/

namespace RegularLanguages.Alphabet

/-- No block is empty, and each character is in exactly one. -/
structure Partition (a : Alphabet) : Prop where
  inhabited : ∀ b ∈ a.blocks, ∃ c, c ∈ b
  covers : ∀ c, ∃ b ∈ a.blocks, c ∈ b
  disjoint : a.blocks.Pairwise fun b d => ∀ c, c ∈ b → c ∉ d

/-- The number of the block that `c` is in. -/
def index (a : Alphabet) (c : Char) : Nat := a.blocks.findIdx (·.contains c)

/-- The block with the number `s`, the empty class if there is none. -/
def label (a : Alphabet) (s : Nat) : CharClass := (a.blocks[s]?).getD .empty

/-- Every block lies inside `k` or outside. -/
def Resolves (a : Alphabet) (k : CharClass) : Prop :=
  ∀ b ∈ a.blocks, (∀ c ∈ b, c ∈ k) ∨ ∀ c ∈ b, c ∉ k

theorem partition_trivial : trivial.Partition where
  inhabited _ hb := ⟨Scalar.first, List.mem_singleton.1 hb ▸ CharClass.mem_universal _⟩
  covers c := ⟨.universal, List.mem_singleton_self _, CharClass.mem_universal c⟩
  disjoint := List.pairwise_singleton ..

/-! ## Lookup -/

theorem block_eq_label {a : Alphabet} {s : Nat} (hs : s < a.size) :
    a.block s = .ok (a.label s) := by
  have hget : a.blocks[s]? = some a.blocks[s] := List.getElem?_eq_getElem hs
  rw [block, label, hget, Option.getD_some]

theorem label_mem {a : Alphabet} {s : Nat} (hs : s < a.size) : a.label s ∈ a.blocks := by
  have hget : a.blocks[s]? = some a.blocks[s] := List.getElem?_eq_getElem hs
  rw [label, hget, Option.getD_some]
  exact List.getElem_mem hs

section Lookup

variable {a : Alphabet} (h : a.Partition)
include h

theorem Partition.index_lt (c : Char) : a.index c < a.size := by
  obtain ⟨b, hb, hc⟩ := h.covers c
  exact List.findIdx_lt_length_of_exists ⟨b, hb, hc⟩

theorem Partition.mem_block_index (c : Char) : ∃ b, a.blocks[a.index c]? = some b ∧ c ∈ b :=
  ⟨_, List.getElem?_eq_getElem (h.index_lt c), List.findIdx_getElem (w := h.index_lt c)⟩

/-- A character is in no other block. -/
theorem Partition.index_eq {c : Char} {s : Nat} {b : CharClass} (hs : a.blocks[s]? = some b)
    (hc : c ∈ b) : a.index c = s := by
  obtain ⟨d, hd, hcd⟩ := h.mem_block_index c
  obtain ⟨hi, rfl⟩ := List.getElem?_eq_some_iff.1 hd
  obtain ⟨hj, rfl⟩ := List.getElem?_eq_some_iff.1 hs
  have hdisjoint := List.pairwise_iff_getElem.1 h.disjoint
  rcases Nat.lt_trichotomy (a.index c) s with hlt | heq | hgt
  · exact absurd hc (hdisjoint _ _ hi hj hlt c hcd)
  · exact heq
  · exact absurd hcd (hdisjoint _ _ hj hi hgt c hc)

theorem Partition.mem_block_iff {s : Nat} {b : CharClass} (hs : a.blocks[s]? = some b) (c : Char) :
    c ∈ b ↔ a.index c = s := by
  refine ⟨h.index_eq hs, fun hc => ?_⟩
  obtain ⟨b', hb', hmem⟩ := h.mem_block_index c
  rw [hc, hs, Option.some.injEq] at hb'
  exact hb' ▸ hmem

theorem Partition.symbolOf_eq (c : Char) : a.symbolOf c = .ok (a.index c) := by
  obtain ⟨b, hb, hc⟩ := h.covers c
  have hsome : (a.blocks.findIdx? (·.contains c)).isSome = true := by
    rw [List.findIdx?_isSome, List.any_eq_true]
    exact ⟨b, hb, hc⟩
  obtain ⟨s, hs⟩ := Option.isSome_iff_exists.1 hsome
  rw [symbolOf, hs, index, (List.findIdx?_eq_some_iff_findIdx_eq.1 hs).2]

theorem Partition.mem_label {s : Nat} {c : Char} : c ∈ a.label s ↔ a.index c = s := by
  unfold label
  cases hs : a.blocks[s]? with
  | none =>
    have hlt := h.index_lt c
    have hle : a.size ≤ s := List.getElem?_eq_none_iff.1 hs
    exact iff_of_false (CharClass.not_mem_empty c) (by omega)
  | some b => exact h.mem_block_iff hs c

theorem Partition.block_eq {s : Nat} (hs : s < a.size) : ∃ b, a.block s = .ok b ∧
    ∀ c, c ∈ b ↔ a.index c = s :=
  ⟨a.label s, block_eq_label hs, fun _ => h.mem_label⟩

/-- Each symbol is the symbol of some character. -/
theorem Partition.exists_index_eq {s : Nat} (hs : s < a.size) : ∃ c, a.index c = s := by
  obtain ⟨c, hc⟩ := h.inhabited _ (List.getElem_mem hs)
  exact ⟨c, h.index_eq (List.getElem?_eq_getElem hs) hc⟩

end Lookup

/-! ## Dividing a block -/

/-- A block that straddles the class is cut in two, any other stays as it is. -/
theorem divide_cases (k b : CharClass) :
    (divide k b = [b] ∧ ((∀ c ∈ b, c ∈ k) ∨ ∀ c ∈ b, c ∉ k)) ∨
    (divide k b = [b.inter k, b.diff (b.inter k)] ∧ (∃ c ∈ b, c ∈ k) ∧ ∃ c ∈ b, c ∉ k) := by
  by_cases hout : (b.inter k).isEmpty = true
  · exact .inl ⟨by simp [divide, hout], .inr (CharClass.inter_isEmpty_iff.1 hout)⟩
  · by_cases hin : (b.inter k).sameAs b = true
    · refine .inl ⟨by simp [divide, hin], .inl fun c hc => ?_⟩
      exact (CharClass.mem_inter.1 ((CharClass.sameAs_iff.1 hin c).2 hc)).2
    · refine .inr ⟨by simp [divide, hout, hin], ?_, ?_⟩
      · simpa [CharClass.inter_isEmpty_iff] using hout
      · simpa [CharClass.sameAs_iff] using hin

theorem divide_eq_self {k b : CharClass} (h : (∀ c ∈ b, c ∈ k) ∨ ∀ c ∈ b, c ∉ k) :
    divide k b = [b] := by
  rcases divide_cases k b with ⟨hdiv, -⟩ | ⟨-, ⟨c, hc, hk⟩, d, hd, hdk⟩
  · exact hdiv
  · rcases h with hin | hout
    · exact absurd (hin d hd) hdk
    · exact absurd hk (hout c hc)

theorem mem_divide {k b : CharClass} {c : Char} : (∃ p ∈ divide k b, c ∈ p) ↔ c ∈ b := by
  rcases divide_cases k b with ⟨h, -⟩ | ⟨h, -⟩
  · simp [h]
  · rw [h]
    simp only [List.mem_cons, List.not_mem_nil, or_false, exists_eq_or_imp, exists_eq_left,
      CharClass.mem_inter, CharClass.mem_diff]
    by_cases hk : c ∈ k <;> simp [hk]

theorem mem_of_mem_divide {k b p : CharClass} {c : Char} (hp : p ∈ divide k b) (hc : c ∈ p) :
    c ∈ b :=
  mem_divide.1 ⟨p, hp, hc⟩

theorem resolved_of_mem_divide {k b p : CharClass} (hp : p ∈ divide k b) :
    (∀ c ∈ p, c ∈ k) ∨ ∀ c ∈ p, c ∉ k := by
  rcases divide_cases k b with ⟨h, hres⟩ | ⟨h, -⟩
  · rw [h, List.mem_singleton] at hp
    exact hp ▸ hres
  · rw [h, List.mem_cons, List.mem_singleton] at hp
    rcases hp with rfl | rfl
    · exact .inl fun c hc => (CharClass.mem_inter.1 hc).2
    · exact .inr fun c hc hk => by simp [hk] at hc

theorem inhabited_of_mem_divide {k b p : CharClass} (hb : ∃ c, c ∈ b) (hp : p ∈ divide k b) :
    ∃ c, c ∈ p := by
  rcases divide_cases k b with ⟨h, -⟩ | ⟨h, ⟨c, hc, hk⟩, d, hd, hdk⟩
  · rw [h, List.mem_singleton] at hp
    exact hp ▸ hb
  · rw [h, List.mem_cons, List.mem_singleton] at hp
    rcases hp with rfl | rfl
    · exact ⟨c, CharClass.mem_inter.2 ⟨hc, hk⟩⟩
    · exact ⟨d, by simp [hd, hdk]⟩

theorem pairwise_divide (k b : CharClass) :
    (divide k b).Pairwise fun p q => ∀ c, c ∈ p → c ∉ q := by
  rcases divide_cases k b with ⟨h, -⟩ | ⟨h, -⟩
  · exact h ▸ List.pairwise_singleton ..
  · exact h ▸ List.pairwise_pair.2 fun c hc => by simpa using fun _ => CharClass.mem_inter.1 hc

/-! ## Refining -/

theorem blocks_refine (a : Alphabet) (k : CharClass) :
    (a.refine k).1.blocks = a.blocks.flatMap (divide k) := by
  have hmap : (a.pieces k).map Prod.fst = a.blocks.zipIdx.flatMap fun b => divide k b.1 := by
    simp [pieces, List.map_flatMap, Function.comp_def]
  rw [refine, hmap, ← List.flatMap_map, List.zipIdx_map_fst]

theorem Partition.refine {a : Alphabet} (h : a.Partition) (k : CharClass) :
    (a.refine k).1.Partition where
  inhabited p hp := by
    rw [blocks_refine] at hp
    obtain ⟨b, hb, hpb⟩ := List.mem_flatMap.1 hp
    exact inhabited_of_mem_divide (h.inhabited b hb) hpb
  covers c := by
    obtain ⟨b, hb, hc⟩ := h.covers c
    obtain ⟨p, hp, hcp⟩ := mem_divide.2 hc
    exact ⟨p, blocks_refine a k ▸ List.mem_flatMap.2 ⟨b, hb, hp⟩, hcp⟩
  disjoint := by
    rw [blocks_refine, List.pairwise_flatMap]
    refine ⟨fun b _ => pairwise_divide k b, h.disjoint.imp fun hbd p hp q hq c hcp hcq => ?_⟩
    exact hbd c (mem_of_mem_divide hp hcp) (mem_of_mem_divide hq hcq)

theorem resolves_refine (a : Alphabet) (k : CharClass) : (a.refine k).1.Resolves k := by
  intro p hp
  rw [blocks_refine] at hp
  obtain ⟨b, -, hpb⟩ := List.mem_flatMap.1 hp
  exact resolved_of_mem_divide hpb

/-- Refining for a class that no block straddles changes nothing. -/
theorem refine_eq_self {a : Alphabet} {k : CharClass} (h : a.Resolves k) : (a.refine k).1 = a := by
  have hblocks : a.blocks.flatMap (divide k) = a.blocks := by
    rw [List.flatMap_def, List.map_congr_left fun b hb => divide_eq_self (h b hb),
      ← List.flatMap_def, List.flatMap_singleton']
  rw [← blocks_refine] at hblocks
  exact congrArg mk hblocks

/-- A new block is a piece of the old one that its origin names. -/
theorem exists_origin {a : Alphabet} {k p : CharClass} {i : Nat}
    (hp : (a.refine k).1.blocks[i]? = some p) :
    ∃ s b, (a.refine k).2[i]? = some s ∧ a.blocks[s]? = some b ∧ p ∈ divide k b := by
  rw [refine, List.getElem?_map, Option.map_eq_some_iff] at hp
  obtain ⟨⟨q, s⟩, hq, rfl⟩ := hp
  obtain ⟨⟨b, t⟩, hbt, hmem⟩ := List.mem_flatMap.1 (List.mem_of_getElem? hq)
  obtain ⟨p, hpb, heq⟩ := List.mem_map.1 hmem
  cases heq
  refine ⟨s, b, ?_, List.mem_zipIdx_iff_getElem?.1 hbt, hpb⟩
  rw [refine, List.getElem?_map, hq, Option.map_some]

/-- The new block of a character comes from its old block. -/
theorem Partition.getElem?_origins {a : Alphabet} (h : a.Partition) (k : CharClass) (c : Char) :
    (a.refine k).2[(a.refine k).1.index c]? = some (a.index c) := by
  obtain ⟨p, hp, hc⟩ := (h.refine k).mem_block_index c
  obtain ⟨s, b, hs, hb, hpb⟩ := exists_origin hp
  rw [hs, h.index_eq hb (mem_of_mem_divide hpb hc)]

/-! ## The symbols of a class -/

theorem Partition.expresses_iff {a : Alphabet} (h : a.Partition) {k : CharClass} :
    a.expresses k = true ↔ a.Resolves k := by
  have hunion : ∀ c, c ∈ CharClass.unionAll (a.blocks.filter (·.overlaps k)) ↔
      ∃ b ∈ a.blocks, (∃ d, d ∈ b ∧ d ∈ k) ∧ c ∈ b := by
    intro c
    simp only [CharClass.mem_unionAll, List.mem_filter, CharClass.overlaps_iff, and_assoc]
  rw [expresses, CharClass.sameAs_iff]
  constructor
  · intro heq b hb
    by_cases hover : ∃ d, d ∈ b ∧ d ∈ k
    · exact .inl fun c hc => (heq c).1 ((hunion c).2 ⟨b, hb, hover, hc⟩)
    · exact .inr fun c hc hk => hover ⟨c, hc, hk⟩
  · intro hres c
    rw [hunion]
    constructor
    · rintro ⟨b, hb, ⟨d, hd, hdk⟩, hc⟩
      exact (hres b hb).elim (fun hin => hin c hc) fun hout => absurd hdk (hout d hd)
    · intro hk
      obtain ⟨b, hb, hc⟩ := h.covers c
      exact ⟨b, hb, ⟨c, hc, hk⟩, hc⟩

theorem mem_symbolsOf {a : Alphabet} {k : CharClass} {s : Nat} :
    s ∈ a.symbolsOf k ↔ ∃ b, a.blocks[s]? = some b ∧ ∃ c, c ∈ b ∧ c ∈ k := by
  simp only [symbolsOf, List.mem_filterMap, Prod.exists, Option.ite_none_right_eq_some,
    Option.some.injEq, List.mem_zipIdx_iff_getElem?, CharClass.overlaps_iff]
  constructor
  · rintro ⟨b, t, hb, hover, rfl⟩
    exact ⟨b, hb, hover⟩
  · rintro ⟨b, hb, hover⟩
    exact ⟨b, s, hb, hover, rfl⟩

theorem Partition.index_mem_symbolsOf {a : Alphabet} (h : a.Partition) {k : CharClass}
    (hres : a.Resolves k) {c : Char} : a.index c ∈ a.symbolsOf k ↔ c ∈ k := by
  rw [mem_symbolsOf]
  constructor
  · rintro ⟨b, hb, d, hd, hk⟩
    obtain ⟨b', hb', hc⟩ := h.mem_block_index c
    rw [hb, Option.some.injEq] at hb'
    subst hb'
    exact (hres b (List.mem_of_getElem? hb)).elim (fun hin => hin c hc)
      fun hout => absurd hk (hout d hd)
  · intro hk
    obtain ⟨b, hb, hc⟩ := h.mem_block_index c
    exact ⟨b, hb, c, hc, hk⟩

theorem Partition.exists_index_of_mem_symbolsOf {a : Alphabet} (h : a.Partition) {k : CharClass}
    {s : Nat} (hs : s ∈ a.symbolsOf k) : ∃ c ∈ k, a.index c = s := by
  obtain ⟨b, hb, c, hc, hk⟩ := mem_symbolsOf.1 hs
  exact ⟨c, hk, h.index_eq hb hc⟩

end RegularLanguages.Alphabet
