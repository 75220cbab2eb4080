import Mathlib.Algebra.GroupWithZero.Nat
import Mathlib.Algebra.Order.BigOperators.Group.List
import Mathlib.Algebra.Order.Group.Nat
import RegularLanguages.Proofs.Alphabet.Coarsest

/-!
# How a refinement divides the blocks

Refining puts the pieces of each block in the place of the block, two if the block `Straddles` the
class and the block itself otherwise. So the origins are the old numbers in order, each as often as
its block has pieces. Whether an alphabet expresses a class is decided on a union of blocks, and
refining goes by one block at a time; both come to the same, so that the alphabets that grow are
exactly those that do not express the class.
-/

namespace RegularLanguages.Alphabet

/-- The block has a character inside the class and one outside. -/
def Straddles (k b : CharClass) : Prop := (∃ c ∈ b, c ∈ k) ∧ ∃ c ∈ b, c ∉ k

/-- The old numbers from `n` on, each once for every piece of its block. -/
def originsFrom (k : CharClass) : Nat → List CharClass → List Nat
  | _, [] => []
  | n, b :: rest => List.replicate (divide k b).length n ++ originsFrom k (n + 1) rest

variable {a : Alphabet} {k l b : CharClass} {bs : List CharClass} {n s : Nat}

/-! ## Pieces -/

theorem resolves_iff : a.Resolves k ↔ ∀ b ∈ a.blocks, ¬Straddles k b := by
  refine forall₂_congr fun b _ => ?_
  constructor
  · rintro (hin | hout) ⟨⟨c, hc, hck⟩, d, hd, hdk⟩
    · exact hdk (hin d hd)
    · exact hout c hc hck
  · intro h
    by_cases hin : ∃ c ∈ b, c ∈ k
    · exact .inl fun c hc => by_contra fun hck => h ⟨hin, c, hc, hck⟩
    · exact .inr fun c hc hck => hin ⟨c, hc, hck⟩

theorem length_divide (k b : CharClass) :
    (¬Straddles k b ∧ (divide k b).length = 1) ∨ (Straddles k b ∧ (divide k b).length = 2) := by
  rcases divide_cases k b with ⟨hdiv, hres⟩ | ⟨hdiv, hin, hout⟩
  · refine .inl ⟨?_, by rw [hdiv, List.length_singleton]⟩
    rintro ⟨⟨c, hc, hck⟩, d, hd, hdk⟩
    exact hres.elim (fun hin => hdk (hin d hd)) fun hout => hout c hc hck
  · exact .inr ⟨⟨hin, hout⟩, by rw [hdiv]; rfl⟩

theorem one_le_length_divide (k b : CharClass) : 1 ≤ (divide k b).length := by
  rcases length_divide k b with ⟨-, h⟩ | ⟨-, h⟩ <;> omega

theorem size_refine (a : Alphabet) (k : CharClass) :
    (a.refine k).1.size = (a.blocks.map fun b => (divide k b).length).sum := by
  rw [size, blocks_refine, List.length_flatMap]

/-- The alphabet grows if and only if some block is cut. -/
theorem size_lt_size_refine_iff : a.size < (a.refine k).1.size ↔ ¬a.Resolves k := by
  constructor
  · intro hlt hres
    rw [refine_eq_self hres] at hlt
    exact Nat.lt_irrefl _ hlt
  · intro hres
    obtain ⟨b, hb, hstraddles⟩ : ∃ b ∈ a.blocks, Straddles k b := by
      simpa [resolves_iff] using hres
    have htwo : (divide k b).length = 2 := by
      rcases length_divide k b with ⟨hnot, -⟩ | ⟨-, h⟩
      · exact absurd hstraddles hnot
      · exact h
    have hsize : a.size = (a.blocks.map fun _ => 1).sum := by
      rw [List.map_const', List.sum_replicate_nat, Nat.mul_one, size]
    rw [hsize, size_refine]
    exact List.sum_lt_sum _ _ (fun d _ => one_le_length_divide k d) ⟨b, hb, by omega⟩

/-- What an alphabet resolves, it resolves after refining. -/
theorem Resolves.refine (h : a.Resolves l) (k : CharClass) : (a.refine k).1.Resolves l := by
  intro p hp
  rw [blocks_refine] at hp
  obtain ⟨b, hb, hpb⟩ := List.mem_flatMap.1 hp
  exact (h b hb).imp (fun hin c hc => hin c (mem_of_mem_divide hpb hc))
    fun hout c hc => hout c (mem_of_mem_divide hpb hc)

/-! ## Origins -/

theorem snd_refine (a : Alphabet) (k : CharClass) :
    (a.refine k).2 = originsFrom k 0 a.blocks := by
  have hfrom (n : Nat) (bs : List CharClass) :
      ((bs.zipIdx n).flatMap fun i => (divide k i.1).map fun p => (p, i.2)).map Prod.snd =
        originsFrom k n bs := by
    induction bs generalizing n with
    | nil => rfl
    | cons b rest ih =>
      rw [List.zipIdx_cons, List.flatMap_cons, List.map_append, ih, originsFrom, List.map_map]
      exact congrArg (· ++ _) (List.map_const' ..)
  exact hfrom 0 a.blocks

theorem length_originsFrom (k : CharClass) (n : Nat) (bs : List CharClass) :
    (originsFrom k n bs).length = (bs.map fun b => (divide k b).length).sum := by
  induction bs generalizing n with
  | nil => rfl
  | cons b rest ih =>
    rw [originsFrom, List.length_append, List.length_replicate, ih, List.map_cons, List.sum_cons]

theorem le_of_mem_originsFrom (h : s ∈ originsFrom k n bs) : n ≤ s := by
  induction bs generalizing n with
  | nil => cases h
  | cons b rest ih =>
    rcases List.mem_append.1 h with h | h
    · exact Nat.le_of_eq (List.eq_of_mem_replicate h).symm
    · exact Nat.le_of_succ_le (ih h)

theorem pairwise_originsFrom (k : CharClass) (n : Nat) (bs : List CharClass) :
    (originsFrom k n bs).Pairwise (· ≤ ·) := by
  induction bs generalizing n with
  | nil => exact .nil
  | cons b rest ih =>
    refine List.pairwise_append.2 ⟨List.pairwise_replicate.2 (.inr (Nat.le_refl n)), ih (n + 1), ?_⟩
    intro s hs t ht
    rw [List.eq_of_mem_replicate hs]
    exact Nat.le_of_succ_le (le_of_mem_originsFrom ht)

/-- Each old number is named as often as its block has pieces. -/
theorem count_originsFrom (h : bs[s]? = some b) :
    (originsFrom k n bs).count (n + s) = (divide k b).length := by
  induction bs generalizing n s with
  | nil => cases h
  | cons d rest ih =>
    rw [originsFrom, List.count_append, List.count_replicate]
    cases s with
    | zero =>
      obtain rfl : d = b := Option.some.inj h
      have hlater : n ∉ originsFrom k (n + 1) rest :=
        fun hmem => Nat.lt_irrefl n (le_of_mem_originsFrom hmem)
      rw [Nat.add_zero, List.count_eq_zero_of_not_mem hlater]
      simp
    | succ s =>
      have hlater := ih (n := n + 1) (s := s) h
      rw [Nat.add_right_comm, Nat.add_assoc] at hlater
      rw [hlater]
      simp

theorem originsFrom_of_resolves (h : ∀ b ∈ bs, ¬Straddles k b) (n : Nat) :
    originsFrom k n bs = List.range' n bs.length := by
  induction bs generalizing n with
  | nil => rfl
  | cons b rest ih =>
    obtain ⟨hb, hrest⟩ := List.forall_mem_cons.1 h
    have hone : (divide k b).length = 1 := by
      rcases length_divide k b with ⟨-, h⟩ | ⟨hb', -⟩
      · exact h
      · exact absurd hb' hb
    rw [originsFrom, hone, ih hrest, List.length_cons, List.range'_succ]
    rfl

/-! ## Expanding -/

/-- The origins lead from the blocks of the refined alphabet `a'` back to those of `a`. -/
structure Traces (a : Alphabet) (k : CharClass) (a' : Alphabet) (origins : List Nat) : Prop where
  length_eq : origins.length = a'.size
  ascending : origins.Pairwise (· ≤ ·)
  /-- A new block lies in the old one. -/
  inside : ∀ i p, a'.block i = .ok p →
    ∃ s b, origins[i]? = some s ∧ a.block s = .ok b ∧ ∀ c ∈ p, c ∈ b
  /-- An old block is named once, or twice if it was cut. -/
  count_eq : ∀ s b, a.block s = .ok b →
    (¬Straddles k b ∧ origins.count s = 1) ∨ (Straddles k b ∧ origins.count s = 2)

theorem traces_refine (a : Alphabet) (k : CharClass) :
    a.Traces k (a.refine k).1 (a.refine k).2 where
  length_eq := by rw [snd_refine, length_originsFrom, size_refine]
  ascending := by
    rw [snd_refine]
    exact pairwise_originsFrom k 0 a.blocks
  inside i p hp := by
    obtain ⟨s, b, hs, hb, hpb⟩ := exists_origin (block_eq_ok_iff.1 hp)
    exact ⟨s, b, hs, block_eq_ok_iff.2 hb, fun c => mem_of_mem_divide hpb⟩
  count_eq s b hb := by
    have hcount := count_originsFrom (k := k) (n := 0) (block_eq_ok_iff.1 hb)
    rw [Nat.zero_add] at hcount
    rw [snd_refine, hcount]
    exact length_divide k b

/-- An expanded alphabet grows by a further class if and only if it does not express it, and is left
as it is otherwise. The origins trace the new blocks, and all classes that were expressed, and now
also this one, are expressed. -/
theorem expand_traced (ks : List CharClass) (k : CharClass) :
    ∃ a a' origins, (trivial.expandAll ks).outcome = .ok a ∧
      (a.expand k).outcome = .ok (a', origins) ∧
      (a.expresses k = false ↔ a.size < a'.size) ∧
      (a.expresses k = true → a' = a ∧ origins = List.range a.size) ∧
      a.Traces k a' origins ∧
      a'.expresses k = true ∧ ∀ l, a.expresses l = true → a'.expresses l = true := by
  obtain ⟨a, ha, hgathers⟩ := gathers_trivial.expandAll ks
  have hpartition := hgathers.partition
  have hrefined := hpartition.refine k
  refine ⟨a, (a.refine k).1, (a.refine k).2, ha, rfl, ?_, fun hk => ?_, traces_refine a k, ?_,
    fun l hl => ?_⟩
  · rw [size_lt_size_refine_iff, ← hpartition.expresses_iff, Bool.not_eq_true]
  · have hresolves := hpartition.expresses_iff.1 hk
    refine ⟨refine_eq_self hresolves, ?_⟩
    rw [snd_refine, originsFrom_of_resolves (resolves_iff.1 hresolves), List.range_eq_range', size]
  · exact hrefined.expresses_iff.2 (resolves_refine a k)
  · exact hrefined.expresses_iff.2 ((hpartition.expresses_iff.1 hl).refine k)

end RegularLanguages.Alphabet
