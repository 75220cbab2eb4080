import Mathlib.Data.Set.Basic
import RegularLanguages.Proofs.Alphabet.Partition

/-!
# Expanded alphabets are the coarsest partition

Two characters are `Alike` for some classes if each class has both of them or neither. An alphabet
that was expanded for the classes, in any order and any number of times, has exactly the classes of
characters that are alike as its blocks. So no block is divided without need, and the order in which
the classes came shows in the numbering only.
-/

namespace RegularLanguages.Alphabet

/-- Every class has both characters or neither. -/
def Alike (ks : List CharClass) (c d : Char) : Prop := ∀ k ∈ ks, c ∈ k ↔ d ∈ k

theorem alike_concat {ks : List CharClass} {k : CharClass} {c d : Char} :
    Alike (ks ++ [k]) c d ↔ Alike ks c d ∧ (c ∈ k ↔ d ∈ k) := by
  simp only [Alike, List.mem_append, List.mem_singleton, or_imp, forall_and, forall_eq]

theorem alike_congr {ks ls : List CharClass} (h : ∀ k, k ∈ ks ↔ k ∈ ls) (c d : Char) :
    Alike ks c d ↔ Alike ls c d :=
  forall_congr' fun k => imp_congr (h k) .rfl

/-- The alphabet expanded for one class after another. -/
def expandAll (a : Alphabet) (ks : List CharClass) : Logged Alphabet :=
  ks.foldlM (fun a k => do return (← a.expand k).1) a

/-- The alphabet refined for one class after another. -/
def refineAll (a : Alphabet) (ks : List CharClass) : Alphabet :=
  ks.foldl (fun a k => (a.refine k).1) a

theorem refineAll_append (a : Alphabet) (ks ls : List CharClass) :
    a.refineAll (ks ++ ls) = (a.refineAll ks).refineAll ls :=
  List.foldl_append

/-- The blocks as sets of characters. -/
def blockSets (a : Alphabet) : Set (Set Char) := {S | ∃ b ∈ a.blocks, S = {c | c ∈ b}}

variable {a : Alphabet} {ks : List CharClass} {k : CharClass} {c d : Char}

/-! ## One expansion -/

/-- Characters stay together unless the class has one of them only. -/
theorem Partition.index_refine_eq_iff (h : a.Partition) (k : CharClass) (c d : Char) :
    (a.refine k).1.index c = (a.refine k).1.index d ↔
      a.index c = a.index d ∧ (c ∈ k ↔ d ∈ k) := by
  have h' := h.refine k
  constructor
  · intro heq
    obtain ⟨p, hp, hc⟩ := h'.mem_block_index c
    have hd : d ∈ p := (h'.mem_block_iff hp d).2 heq.symm
    have horigin := h.getElem?_origins k c
    rw [heq, h.getElem?_origins k d, Option.some.injEq] at horigin
    refine ⟨horigin.symm, ?_⟩
    rcases resolves_refine a k p (List.mem_of_getElem? hp) with hin | hout
    · exact iff_of_true (hin c hc) (hin d hd)
    · exact iff_of_false (hout c hc) (hout d hd)
  · rintro ⟨hindex, hk⟩
    obtain ⟨b, hb, hc⟩ := h.mem_block_index c
    have hd : d ∈ b := (h.mem_block_iff hb d).2 hindex.symm
    obtain ⟨p, hp, hcp⟩ := mem_divide (k := k).2 hc
    have hdp : d ∈ p := by
      rcases divide_cases k b with ⟨hdiv, -⟩ | ⟨hdiv, -⟩
      · rw [hdiv, List.mem_singleton] at hp
        exact hp ▸ hd
      · rw [hdiv, List.mem_cons, List.mem_singleton] at hp
        rcases hp with rfl | rfl
        · rw [CharClass.mem_inter] at hcp ⊢
          exact ⟨hd, hk.1 hcp.2⟩
        · rw [CharClass.mem_diff, CharClass.mem_inter] at hcp ⊢
          exact ⟨hd, fun hdk => hcp.2 ⟨hc, hk.2 hdk.2⟩⟩
    have hmem : p ∈ (a.refine k).1.blocks := by
      rw [blocks_refine]
      exact List.mem_flatMap.2 ⟨b, List.mem_of_getElem? hb, hp⟩
    obtain ⟨s, hs⟩ := List.mem_iff_getElem?.1 hmem
    rw [h'.index_eq hs hcp, h'.index_eq hs hdp]

/-! ## All expansions -/

/-- The blocks keep together what is alike, and nothing else. -/
structure Gathers (a : Alphabet) (ks : List CharClass) : Prop where
  partition : a.Partition
  index_eq_iff : ∀ c d, a.index c = a.index d ↔ Alike ks c d

theorem gathers_trivial : trivial.Gathers [] where
  partition := partition_trivial
  index_eq_iff c d := by
    have hlt : ∀ c, trivial.index c < 1 := partition_trivial.index_lt
    have hc := hlt c
    have hd := hlt d
    exact iff_of_true (by omega) nofun

theorem Gathers.refine (h : a.Gathers ks) (k : CharClass) : (a.refine k).1.Gathers (ks ++ [k]) where
  partition := h.partition.refine k
  index_eq_iff c d := by
    rw [h.partition.index_refine_eq_iff, h.index_eq_iff, alike_concat]

theorem Gathers.refineAll (h : a.Gathers ks) (ls : List CharClass) :
    (a.refineAll ls).Gathers (ks ++ ls) := by
  induction ls generalizing a ks with
  | nil => rwa [List.append_nil]
  | cons k rest ih =>
    have hrest := ih (h.refine k)
    rwa [List.append_assoc, List.singleton_append] at hrest

theorem gathers_refineAll_trivial (ks : List CharClass) : (trivial.refineAll ks).Gathers ks := by
  have h := gathers_trivial.refineAll ks
  rwa [List.nil_append] at h

theorem outcome_expandAll (a : Alphabet) (ks : List CharClass) :
    (a.expandAll ks).outcome = .ok (a.refineAll ks) := by
  induction ks generalizing a with
  | nil => rfl
  | cons k rest ih => exact ih (a.refine k).1

theorem Gathers.expandAll (h : a.Gathers ks) (ls : List CharClass) :
    ∃ a', (a.expandAll ls).outcome = .ok a' ∧ a'.Gathers (ks ++ ls) :=
  ⟨_, outcome_expandAll a ls, h.refineAll ls⟩

theorem Gathers.mem_block_iff (h : a.Gathers ks) {b : CharClass} (hb : b ∈ a.blocks) (hc : c ∈ b) :
    d ∈ b ↔ Alike ks c d := by
  obtain ⟨s, hs⟩ := List.mem_iff_getElem?.1 hb
  rw [h.partition.mem_block_iff hs, ← h.index_eq_iff, h.partition.index_eq hs hc, eq_comm]

theorem Gathers.blockSets_eq (h : a.Gathers ks) :
    a.blockSets = {S | ∃ c, S = {d | Alike ks c d}} := by
  ext S
  constructor
  · rintro ⟨b, hb, rfl⟩
    obtain ⟨c, hc⟩ := h.partition.inhabited b hb
    exact ⟨c, Set.ext fun d => h.mem_block_iff hb hc⟩
  · rintro ⟨c, rfl⟩
    obtain ⟨b, hb, hc⟩ := h.partition.covers c
    exact ⟨b, hb, Set.ext fun d => (h.mem_block_iff hb hc).symm⟩

theorem Gathers.resolves (h : a.Gathers ks) (hk : k ∈ ks) : a.Resolves k := by
  intro b hb
  obtain ⟨c, hc⟩ := h.partition.inhabited b hb
  have hiff : ∀ d ∈ b, c ∈ k ↔ d ∈ k := fun d hd => (h.mem_block_iff hb hc).1 hd k hk
  by_cases hck : c ∈ k
  · exact .inl fun d hd => (hiff d hd).1 hck
  · exact .inr fun d hd hdk => hck ((hiff d hd).2 hdk)

/-- What the blocks of an alphabet that was expanded for `ks` are. -/
structure Coarsest (a : Alphabet) (ks : List CharClass) : Prop where
  partition : a.Partition
  /-- The blocks are the classes of characters that are alike. -/
  blockSets : a.blockSets = {S | ∃ c, S = {d | Alike ks c d}}
  /-- Every partition that expresses the classes is at least as fine. -/
  least : ∀ p : Alphabet, p.Partition → (∀ k ∈ ks, p.expresses k = true) →
    ∀ b ∈ p.blocks, ∃ d ∈ a.blocks, ∀ c ∈ b, c ∈ d
  /-- Every class is the union of its blocks. -/
  union : ∀ k ∈ ks, ∀ c, c ∈ k ↔ ∃ s ∈ a.symbolsOf k, ∃ b, a.block s = .ok b ∧ c ∈ b
  /-- The symbol of a character is the number of the one block that has it. -/
  symbolOf : ∀ c, ∃ s b, a.symbolOf c = .ok s ∧ a.block s = .ok b ∧ c ∈ b ∧
    ∀ t b', a.block t = .ok b' → c ∈ b' → t = s

theorem block_eq_ok_iff {s : Nat} {b : CharClass} : a.block s = .ok b ↔ a.blocks[s]? = some b := by
  unfold block
  cases a.blocks[s]? <;> simp

theorem Gathers.le_of_resolves (h : a.Gathers ks) {p : Alphabet} (hp : p.Partition)
    (hres : ∀ k ∈ ks, p.Resolves k) {b : CharClass} (hb : b ∈ p.blocks) :
    ∃ d ∈ a.blocks, ∀ c ∈ b, c ∈ d := by
  obtain ⟨c, hc⟩ := hp.inhabited b hb
  obtain ⟨d, hd, hcd⟩ := h.partition.covers c
  refine ⟨d, hd, fun e he => (h.mem_block_iff hd hcd).2 fun k hk => ?_⟩
  rcases hres k hk b hb with hin | hout
  · exact iff_of_true (hin c hc) (hin e he)
  · exact iff_of_false (hout c hc) (hout e he)

theorem Partition.mem_iff_mem_symbolsOf (h : a.Partition) (hres : a.Resolves k) :
    c ∈ k ↔ ∃ s ∈ a.symbolsOf k, ∃ b, a.block s = .ok b ∧ c ∈ b := by
  rw [← h.index_mem_symbolsOf hres]
  constructor
  · intro hs
    obtain ⟨b, hb, hc⟩ := h.mem_block_index c
    exact ⟨_, hs, b, block_eq_ok_iff.2 hb, hc⟩
  · rintro ⟨s, hs, b, hb, hc⟩
    rwa [h.index_eq (block_eq_ok_iff.1 hb) hc]

theorem Gathers.coarsest (h : a.Gathers ks) : a.Coarsest ks where
  partition := h.partition
  blockSets := h.blockSets_eq
  least p hp hks _ hb := h.le_of_resolves hp (fun k hk => hp.expresses_iff.1 (hks k hk)) hb
  union k hk c := h.partition.mem_iff_mem_symbolsOf (h.resolves hk)
  symbolOf c := by
    obtain ⟨b, hb, hc⟩ := h.partition.mem_block_index c
    refine ⟨a.index c, b, h.partition.symbolOf_eq c, block_eq_ok_iff.2 hb, hc, ?_⟩
    intro t b' hb' hc'
    exact (h.partition.index_eq (block_eq_ok_iff.1 hb') hc').symm

/-- The blocks of an expanded alphabet are the classes of characters that are alike, whatever the
order of the expansions. -/
theorem expandAll_coarsest (ks : List CharClass) :
    ∃ a, (trivial.expandAll ks).outcome = .ok a ∧ a.Coarsest ks ∧
      ∀ ls, (∀ k, k ∈ ls ↔ k ∈ ks) →
        ∃ a', (trivial.expandAll ls).outcome = .ok a' ∧ a'.blockSets = a.blockSets := by
  obtain ⟨a, ha, h⟩ := gathers_trivial.expandAll ks
  rw [List.nil_append] at h
  refine ⟨a, ha, h.coarsest, fun ls hls => ?_⟩
  obtain ⟨a', ha', h'⟩ := gathers_trivial.expandAll ls
  rw [List.nil_append] at h'
  refine ⟨a', ha', ?_⟩
  rw [h.blockSets_eq, h'.blockSets_eq]
  simp only [alike_congr hls]

end RegularLanguages.Alphabet
