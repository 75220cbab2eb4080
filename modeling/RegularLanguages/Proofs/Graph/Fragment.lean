import RegularLanguages.Nfa.OfPattern
import RegularLanguages.Proofs.Graph.Basic

/-!
# Fragments of a graph

`Extends g g'` says that `g'` is `g` with more vertices and with edges among these. A fragment is
`Built` on `g` when the walks from its entry to its exit, which stay among the new vertices, read a
given language. Fragments are put together by epsilon edges from the exit of one; the only way out
of it is then that edge, and a walk divides where it takes it.
-/

open Computability

namespace RegularLanguages.Graph

/-- The texts of the walks between two vertices. -/
def paths (g : Graph) (u v : Nat) : Language Char := {w | g.Path u w v}

/-- Adds an epsilon edge. -/
def link (g : Graph) (u v : Nat) : Graph := g.addEdges u .epsilon v

variable {g h g' g₁ g₂ : Graph} {u v x y s t : Nat} {w : List Char} {R : Nat → Prop}

@[simp] theorem edge_link {a : Option Char} :
    (g.link s t).edge u a v ↔ (u = s ∧ a = none ∧ v = t) ∨ g.edge u a v := Iff.rfl

@[simp] theorem edge_addVertex : g.addVertex.edge = g.edge := rfl

theorem mem_paths : w ∈ g.paths u v ↔ g.Path u w v := Iff.rfl

/-! ## Walks in a part of a graph -/

/-- A walk in a part that edges do not leave is a walk in every graph with the same part. -/
theorem Path.transfer (hR : ∀ u a v, R u → g.edge u a v → h.edge u a v ∧ R v)
    (hp : g.Path u w v) (hu : R u) : h.Path u w v := by
  induction hp with
  | nil => exact .nil _
  | step he _ ih =>
    obtain ⟨he', hv⟩ := hR _ _ _ hu he
    exact .step he' (ih hv)

/-- A walk out of a part with one edge out of it divides at that edge. -/
theorem Path.leave (hR : ∀ u a v, R u → h.edge u a v →
      (g.edge u a v ∧ R v) ∨ (u = x ∧ a = none ∧ v = y))
    (hp : h.Path u w t) (hu : R u) (ht : ¬R t) :
    ∃ w₁ w₂, g.Path u w₁ x ∧ h.Path y w₂ t ∧ w = w₁ ++ w₂ := by
  induction hp with
  | nil => exact absurd hu ht
  | @step u v t a w he hp ih =>
    rcases hR u a v hu he with ⟨he', hv⟩ | ⟨rfl, rfl, rfl⟩
    · obtain ⟨w₁, w₂, hp₁, hp₂, rfl⟩ := ih hv ht
      exact ⟨a.toList ++ w₁, w₂, .step he' hp₁, hp₂, (List.append_assoc ..).symm⟩
    · exact ⟨[], w, .nil _, hp, rfl⟩

theorem Path.eq_of_no_edge (hu : ∀ a v, ¬g.edge u a v) (hp : g.Path u w v) : v = u ∧ w = [] := by
  cases hp with
  | nil => exact ⟨rfl, rfl⟩
  | step he _ => exact absurd he (hu _ _)

theorem Path.exists_step (hp : g.Path u w t) (hne : u ≠ t) :
    ∃ a v w', g.edge u a v ∧ g.Path v w' t ∧ w = a.toList ++ w' := by
  cases hp with
  | nil => exact absurd rfl hne
  | step he hp => exact ⟨_, _, _, he, hp, rfl⟩

/-! ## New vertices -/

/-- The vertex is numbered after those of `g` and before the next of `g'`. -/
def Added (g g' : Graph) (u : Nat) : Prop := g.next ≤ u ∧ u < g'.next

/-- The graph `g'` is `g` with more vertices and with edges among these. -/
structure Extends (g g' : Graph) : Prop where
  next_le : g.next ≤ g'.next
  vertex : ∀ u, g'.vertex u ↔ g.vertex u ∨ Added g g' u
  start : g'.start = g.start
  accept : g'.accept = g.accept
  old : ∀ u a v, u < g.next → (g'.edge u a v ↔ g.edge u a v)
  new : ∀ u a v, g.next ≤ u → g'.edge u a v → Added g g' u ∧ Added g g' v

theorem Extends.refl (hg : ∀ u a v, g.edge u a v → u < g.next) : Extends g g where
  next_le := Nat.le_refl _
  vertex _ := (or_iff_left fun hu => Nat.not_lt_of_le hu.1 hu.2).symm
  start := rfl
  accept := rfl
  old _ _ _ _ := Iff.rfl
  new u a v hu he := absurd (hg u a v he) (Nat.not_lt_of_le hu)

theorem Extends.trans (h₁ : Extends g g₁) (h₂ : Extends g₁ g₂) : Extends g g₂ where
  next_le := Nat.le_trans h₁.next_le h₂.next_le
  vertex u := by
    have := h₁.next_le
    have := h₂.next_le
    rw [h₂.vertex, h₁.vertex, or_assoc]
    refine or_congr_right ?_
    unfold Added
    omega
  start := h₂.start.trans h₁.start
  accept := h₂.accept.trans h₁.accept
  old u a v hu := by
    rw [h₂.old u a v (Nat.lt_of_lt_of_le hu h₁.next_le), h₁.old u a v hu]
  new u a v hu he := by
    have := h₁.next_le
    have := h₂.next_le
    unfold Added
    by_cases hu₁ : u < g₁.next
    · obtain ⟨⟨-, hu'⟩, hv, hv'⟩ := h₁.new u a v hu ((h₂.old u a v hu₁).1 he)
      omega
    · obtain ⟨⟨-, hu'⟩, hv, hv'⟩ := h₂.new u a v (Nat.le_of_not_lt hu₁) he
      omega

theorem Extends.addVertex (h : Extends g g') : Extends g g'.addVertex where
  next_le := Nat.le_succ_of_le h.next_le
  vertex u := by
    have := h.next_le
    simp only [Graph.addVertex, h.vertex, Added]
    grind
  start := h.start
  accept := h.accept
  old := h.old
  new u a v hu he := by
    obtain ⟨hu', hv⟩ := h.new u a v hu he
    exact ⟨⟨hu'.1, Nat.lt_succ_of_lt hu'.2⟩, hv.1, Nat.lt_succ_of_lt hv.2⟩

theorem Extends.addEdges (h : Extends g g') (hu : Added g g' u) (hv : Added g g' v)
    (label : Label) : Extends g (g'.addEdges u label v) where
  next_le := h.next_le
  vertex := h.vertex
  start := h.start
  accept := h.accept
  old s a t hs := by
    rw [← h.old s a t hs]
    exact or_iff_right fun he => Nat.not_lt_of_le hu.1 (he.1 ▸ hs)
  new s a t hs he := by
    rcases he with ⟨rfl, -, rfl⟩ | he
    · exact ⟨hu, hv⟩
    · exact h.new s a t hs he

/-! ## Fragments -/

/-- Building gave `g'` with a fragment that reads `L`. -/
structure Built (g g' : Graph) (f : Fragment) (L : Language Char) : Prop extends Extends g g' where
  entry : Added g g' f.entry
  exit : Added g g' f.exit
  paths : g'.paths f.entry f.exit = L

variable {f f₁ f₂ : Fragment} {L L₁ L₂ : Language Char}

theorem not_added (hu : u < g.next ∨ g'.next ≤ u) : ¬Added g g' u := fun h =>
  hu.elim (Nat.not_lt_of_le h.1) (Nat.not_le_of_lt h.2)

section Use

variable (hb : Built g g' f L)
include hb

theorem Built.vertex_entry : g'.vertex f.entry := (hb.vertex _).2 (.inr hb.entry)

theorem Built.vertex_exit : g'.vertex f.exit := (hb.vertex _).2 (.inr hb.exit)

theorem Built.path (hh : ∀ u a v, Added g g' u → g'.edge u a v → h.edge u a v) (hw : w ∈ L) :
    h.Path f.entry w f.exit := by
  rw [← hb.paths] at hw
  exact hw.transfer (fun u a v hu he => ⟨hh u a v hu he, (hb.new u a v hu.1 he).2⟩) hb.entry

theorem Built.mem_of_path (hh : ∀ u a v, Added g g' u → h.edge u a v → g'.edge u a v)
    (hp : h.Path f.entry w f.exit) : w ∈ L := by
  rw [← hb.paths]
  refine hp.transfer (fun u a v hu he => ?_) hb.entry
  have he' := hh u a v hu he
  exact ⟨he', (hb.new u a v hu.1 he').2⟩

/-- A walk leaves a fragment behind a text of it. -/
theorem Built.leave (hh : ∀ u a v, Added g g' u → h.edge u a v →
      g'.edge u a v ∨ (u = f.exit ∧ a = none ∧ v = y))
    (hp : h.Path f.entry w t) (ht : ¬Added g g' t) :
    ∃ w₁ ∈ L, ∃ w₂, h.Path y w₂ t ∧ w₁ ++ w₂ = w := by
  obtain ⟨w₁, w₂, hp₁, hp₂, rfl⟩ := hp.leave (fun u a v hu he => (hh u a v hu he).imp_left
    fun he' => ⟨he', (hb.new u a v hu.1 he').2⟩) hb.entry ht
  exact ⟨w₁, hb.paths ▸ hp₁, w₂, hp₂, rfl⟩

/-- With a vertex behind the exit where all walks stop. -/
theorem Built.path_iff (hh : ∀ u a v, Added g g' u →
      (h.edge u a v ↔ g'.edge u a v ∨ (u = f.exit ∧ a = none ∧ v = t)))
    (ht : ¬Added g g' t) (hstop : ∀ a v, ¬h.edge t a v) : h.Path f.entry w t ↔ w ∈ L := by
  constructor
  · intro hp
    obtain ⟨w₁, hw₁, w₂, hp₂, rfl⟩ := hb.leave (fun u a v hu => (hh u a v hu).1) hp ht
    rw [(hp₂.eq_of_no_edge hstop).2, List.append_nil]
    exact hw₁
  · intro hw
    have hp := hb.path (fun u a v hu he => (hh u a v hu).2 (.inl he)) hw
    have hend := hp.trans (.single ((hh _ none _ hb.exit).2 (.inr ⟨rfl, rfl, rfl⟩)))
    rwa [Option.toList_none, List.append_nil] at hend

end Use

theorem built_point (hg : ∀ u a v, g.edge u a v → u < g.next) :
    Built g g.addVertex ⟨g.next, g.next⟩ 1 where
  toExtends := (Extends.refl hg).addVertex
  entry := ⟨Nat.le_refl _, Nat.lt_succ_self _⟩
  exit := ⟨Nat.le_refl _, Nat.lt_succ_self _⟩
  paths := by
    have hentry : ∀ a v, ¬g.addVertex.edge g.next a v := fun a v he =>
      Nat.lt_irrefl _ (hg _ a v he)
    ext w
    rw [mem_paths, Language.mem_one]
    refine ⟨fun hp => (hp.eq_of_no_edge hentry).2, ?_⟩
    rintro rfl
    exact .nil _

theorem added_addVertex_addVertex (g : Graph) :
    Added g g.addVertex.addVertex g.next ∧ Added g g.addVertex.addVertex (g.next + 1) :=
  ⟨⟨Nat.le_refl _, Nat.lt_succ_of_lt (Nat.lt_succ_self _)⟩, Nat.le_succ _, Nat.lt_succ_self _⟩

theorem built_gap (hg : ∀ u a v, g.edge u a v → u < g.next) :
    Built g g.addVertex.addVertex ⟨g.next, g.next + 1⟩ 0 where
  toExtends := (Extends.refl hg).addVertex.addVertex
  entry := (added_addVertex_addVertex g).1
  exit := (added_addVertex_addVertex g).2
  paths := by
    have hentry : ∀ a v, ¬g.addVertex.addVertex.edge g.next a v := fun a v he =>
      Nat.lt_irrefl _ (hg _ a v he)
    ext w
    refine ⟨fun hp => ?_, fun hw => absurd hw (Language.notMem_zero w)⟩
    exact absurd (hp.eq_of_no_edge hentry).1 (Nat.succ_ne_self _)

/-- Two new vertices and an edge for everything that the label reads. -/
theorem built_edge (hg : ∀ u a v, g.edge u a v → u < g.next) (label : Label) :
    Built g (g.addVertex.addVertex.addEdges g.next label (g.next + 1)) ⟨g.next, g.next + 1⟩
      {w | ∃ a, label.Reads a ∧ w = a.toList} := by
  obtain ⟨hentry, hexit⟩ := added_addVertex_addVertex g
  refine ⟨(Extends.refl hg).addVertex.addVertex.addEdges hentry hexit label, hentry, hexit, ?_⟩
  have hedge : ∀ u a v, g.next ≤ u →
      (g.addVertex.addVertex.addEdges g.next label (g.next + 1)).edge u a v →
      u = g.next ∧ label.Reads a ∧ v = g.next + 1 := fun u a v hu he =>
    he.resolve_right fun he => Nat.not_lt_of_le hu (hg u a v he)
  ext w
  constructor
  · intro hp
    obtain ⟨a, v, w', he, hp, rfl⟩ := hp.exists_step (Nat.succ_ne_self _).symm
    obtain ⟨-, ha, rfl⟩ := hedge _ _ _ (Nat.le_refl _) he
    have hstop := hp.eq_of_no_edge fun a v he =>
      Nat.succ_ne_self _ (hedge _ _ _ (Nat.le_succ _) he).1
    exact ⟨a, ha, by rw [hstop.2, List.append_nil]⟩
  · rintro ⟨a, ha, rfl⟩
    exact .single (.inl ⟨rfl, ha, rfl⟩)

/-- A second fragment after the first. -/
theorem Built.append (h₁ : Built g g₁ f₁ L₁) (h₂ : Built g₁ g₂ f₂ L₂) :
    Built g (g₂.link f₁.exit f₂.entry) ⟨f₁.entry, f₂.exit⟩ (L₁ * L₂) := by
  have hext := h₁.toExtends.trans h₂.toExtends
  have hin {u : Nat} (hu : Added g g₁ u) : Added g g₂ u := ⟨hu.1, hu.2.trans_le h₂.next_le⟩
  have hin' {u : Nat} (hu : Added g₁ g₂ u) : Added g g₂ u := ⟨h₁.next_le.trans hu.1, hu.2⟩
  have hedge₁ : ∀ u a v, Added g g₁ u → ((g₂.link f₁.exit f₂.entry).edge u a v ↔
      g₁.edge u a v ∨ (u = f₁.exit ∧ a = none ∧ v = f₂.entry)) := fun u a v hu => by
    rw [edge_link, h₂.old u a v hu.2, or_comm]
  have hedge₂ : ∀ u a v, Added g₁ g₂ u →
      ((g₂.link f₁.exit f₂.entry).edge u a v ↔ g₂.edge u a v) := fun u a v hu =>
    or_iff_right fun he => Nat.not_lt_of_le hu.1 (he.1 ▸ h₁.exit.2)
  refine ⟨hext.addEdges (hin h₁.exit) (hin' h₂.entry) _, hin h₁.entry, hin' h₂.exit, ?_⟩
  ext w
  rw [mem_paths, Language.mem_mul]
  constructor
  · intro hp
    obtain ⟨w₁, hw₁, w₂, hp₂, rfl⟩ := h₁.leave (fun u a v hu => (hedge₁ u a v hu).1) hp
      (not_added (.inr h₂.exit.1))
    exact ⟨w₁, hw₁, w₂, h₂.mem_of_path (fun u a v hu => (hedge₂ u a v hu).1) hp₂, rfl⟩
  · rintro ⟨w₁, hw₁, w₂, hw₂, rfl⟩
    have hp₁ := h₁.path (fun u a v hu he => (hedge₁ u a v hu).2 (.inl he)) hw₁
    have hp₂ := h₂.path (fun u a v hu => (hedge₂ u a v hu).2) hw₂
    exact hp₁.trans (.step (Or.inl ⟨rfl, rfl, rfl⟩) hp₂)

/-- A walk back to a hub goes through the fragment behind it any number of times. -/
theorem Built.mem_kstar_of_path {hub : Nat} (hb : Built g g' f L) (hne : ¬Added g g' hub)
    (hhub : ∀ a v, h.edge hub a v → a = none ∧ v = f.entry)
    (hh : ∀ u a v, Added g g' u → h.edge u a v →
      (u = f.exit ∧ a = none ∧ v = hub) ∨ g'.edge u a v)
    (hp : h.Path u w t) (ht : t = hub) :
    (u = hub → w ∈ L∗) ∧ (Added g g' u → w ∈ g'.paths u f.exit * L∗) := by
  induction hp with
  | nil => exact ⟨fun _ => Language.nil_mem_kstar L, fun hu => absurd (ht ▸ hu) hne⟩
  | @step u v t a w he _ ih =>
    obtain ⟨ih_hub, ih_added⟩ := ih ht
    constructor
    · rintro rfl
      obtain ⟨rfl, rfl⟩ := hhub a v he
      have hw := ih_added hb.entry
      rw [hb.paths] at hw
      have hle : L * L∗ ≤ L∗ := mul_kstar_le_kstar
      exact hle hw
    · intro hu
      rcases hh u a v hu he with ⟨rfl, rfl, rfl⟩ | he
      · exact ⟨[], .nil _, w, ih_hub rfl, rfl⟩
      · obtain ⟨x, hx, y, hy, rfl⟩ := ih_added (hb.new u a v hu.1 he).2
        exact ⟨a.toList ++ x, Path.step he hx, y, hy, List.append_assoc ..⟩

/-- A fragment that a hub leads into and that leads back to the hub. -/
theorem Built.loop (hg : ∀ u a v, g.edge u a v → u < g.next) (hb : Built g.addVertex g' f L) :
    Built g ((g'.link g.next f.entry).link f.exit g.next) ⟨g.next, g.next⟩ L∗ := by
  have hext := (Extends.refl hg).addVertex.trans hb.toExtends
  have hhub : Added g g' g.next := ⟨Nat.le_refl _, hb.next_le⟩
  have hin {u : Nat} (hu : Added g.addVertex g' u) : Added g g' u := ⟨Nat.le_of_lt hu.1, hu.2⟩
  have hfrom_hub : ∀ a v, ((g'.link g.next f.entry).link f.exit g.next).edge g.next a v ↔
      a = none ∧ v = f.entry := by
    intro a v
    have hexit : g.next ≠ f.exit := Nat.ne_of_lt hb.exit.1
    have hold : ¬g'.edge g.next a v := fun he =>
      Nat.lt_irrefl _ (hg _ a v ((hb.old _ a v (Nat.lt_succ_self _)).1 he))
    simp [hexit, hold]
  have hedge : ∀ u a v, Added g.addVertex g' u →
      (((g'.link g.next f.entry).link f.exit g.next).edge u a v ↔
        (u = f.exit ∧ a = none ∧ v = g.next) ∨ g'.edge u a v) := by
    intro u a v hu
    have hne : u ≠ g.next := Nat.ne_of_gt hu.1
    simp [hne]
  refine ⟨(hext.addEdges hhub (hin hb.entry) _).addEdges (hin hb.exit) hhub _, hhub, hhub, ?_⟩
  refine le_antisymm (fun w hp => ?_) (kstar_le_of_mul_le_right ?_ ?_)
  · exact (hb.mem_kstar_of_path (not_added (.inl (Nat.lt_succ_self _)))
      (fun a v => (hfrom_hub a v).1) (fun u a v hu => (hedge u a v hu).1) hp rfl).1 rfl
  · rintro _ rfl
    exact .nil _
  · rintro _ ⟨w₁, hw₁, w₂, hp₂, rfl⟩
    have hp₁ := hb.path (fun u a v hu he => (hedge u a v hu).2 (.inr he)) hw₁
    have hback := hp₁.trans (.step (Or.inl ⟨rfl, rfl, rfl⟩) hp₂)
    exact Path.step ((hfrom_hub none _).2 ⟨rfl, rfl⟩) hback

/-- Two fragments between a new entry and a new exit. -/
def fork (g : Graph) (entry : Nat) (f₁ f₂ : Fragment) : Graph :=
  (((g.addVertex.link entry f₁.entry).link entry f₂.entry).link f₁.exit g.next).link f₂.exit g.next

theorem edge_fork_entry (hg : ∀ u a v, g.edge u a v → u < g.next)
    (h₁ : Built g.addVertex g₁ f₁ L₁) (h₂ : Built g₁ g₂ f₂ L₂) (a : Option Char) (v : Nat) :
    (g₂.fork g.next f₁ f₂).edge g.next a v ↔ a = none ∧ (v = f₁.entry ∨ v = f₂.entry) := by
  have hold : ¬g₂.edge g.next a v := fun he => Nat.lt_irrefl _ (hg _ a v
    ((h₁.old _ a v (Nat.lt_succ_self _)).1 ((h₂.old _ a v h₁.next_le).1 he)))
  have hne₁ : g.next ≠ f₁.exit := Nat.ne_of_lt h₁.exit.1
  have hne₂ : g.next ≠ f₂.exit := Nat.ne_of_lt (Nat.lt_of_lt_of_le h₁.next_le h₂.exit.1)
  simp [fork, hne₁, hne₂, hold, ← and_or_left, or_comm]

theorem not_edge_fork_exit (h₁ : Built g.addVertex g₁ f₁ L₁) (h₂ : Built g₁ g₂ f₂ L₂)
    (a : Option Char) (v : Nat) : ¬(g₂.fork g.next f₁ f₂).edge g₂.next a v := by
  have hold : ¬g₂.edge g₂.next a v := fun he =>
    Nat.lt_irrefl _ (h₂.new _ a v h₂.next_le he).1.2
  have hne : g₂.next ≠ g.next := Nat.ne_of_gt (Nat.lt_of_lt_of_le h₁.next_le h₂.next_le)
  have hne₁ : g₂.next ≠ f₁.exit := Nat.ne_of_gt (Nat.lt_of_lt_of_le h₁.exit.2 h₂.next_le)
  have hne₂ : g₂.next ≠ f₂.exit := Nat.ne_of_gt h₂.exit.2
  simp [fork, hne, hne₁, hne₂, hold]

theorem edge_fork_first (h₂ : Built g₁ g₂ f₂ L₂) (u : Nat) (a : Option Char) (v : Nat)
    (hu : Added g.addVertex g₁ u) :
    (g₂.fork g.next f₁ f₂).edge u a v ↔
      g₁.edge u a v ∨ (u = f₁.exit ∧ a = none ∧ v = g₂.next) := by
  have hne : u ≠ g.next := Nat.ne_of_gt hu.1
  have hne₂ : u ≠ f₂.exit := Nat.ne_of_lt (Nat.lt_of_lt_of_le hu.2 h₂.exit.1)
  simp [fork, hne, hne₂, h₂.old u a v hu.2, or_comm]

theorem edge_fork_second (h₁ : Built g.addVertex g₁ f₁ L₁) (u : Nat) (a : Option Char) (v : Nat)
    (hu : Added g₁ g₂ u) :
    (g₂.fork g.next f₁ f₂).edge u a v ↔
      g₂.edge u a v ∨ (u = f₂.exit ∧ a = none ∧ v = g₂.next) := by
  have hne : u ≠ g.next := Nat.ne_of_gt (Nat.lt_of_lt_of_le h₁.next_le hu.1)
  have hne₁ : u ≠ f₁.exit := Nat.ne_of_gt (Nat.lt_of_lt_of_le h₁.exit.2 hu.1)
  simp [fork, hne, hne₁, or_comm]

theorem Built.fork (hg : ∀ u a v, g.edge u a v → u < g.next) (h₁ : Built g.addVertex g₁ f₁ L₁)
    (h₂ : Built g₁ g₂ f₂ L₂) : Built g (g₂.fork g.next f₁ f₂) ⟨g.next, g₂.next⟩ (L₁ + L₂) := by
  have hlt₁ : g.next < g₁.next := h₁.next_le
  have hlt₂ : g.next < g₂.next := hlt₁.trans_le h₂.next_le
  have hext := ((Extends.refl hg).addVertex.trans h₁.toExtends).trans h₂.toExtends
  have hentry : Added g g₂.addVertex g.next := ⟨Nat.le_refl _, Nat.lt_succ_of_lt hlt₂⟩
  have hexit : Added g g₂.addVertex g₂.next := ⟨Nat.le_of_lt hlt₂, Nat.lt_succ_self _⟩
  have hin₁ {u : Nat} (hu : Added g.addVertex g₁ u) : Added g g₂.addVertex u :=
    ⟨Nat.le_of_lt hu.1, Nat.lt_succ_of_lt (hu.2.trans_le h₂.next_le)⟩
  have hin₂ {u : Nat} (hu : Added g₁ g₂ u) : Added g g₂.addVertex u :=
    ⟨hlt₁.le.trans hu.1, Nat.lt_succ_of_lt hu.2⟩
  have hfirst (w : List Char) : (g₂.fork g.next f₁ f₂).Path f₁.entry w g₂.next ↔ w ∈ L₁ :=
    h₁.path_iff (edge_fork_first h₂) (not_added (.inr h₂.next_le)) (not_edge_fork_exit h₁ h₂)
  have hsecond (w : List Char) : (g₂.fork g.next f₁ f₂).Path f₂.entry w g₂.next ↔ w ∈ L₂ :=
    h₂.path_iff (edge_fork_second h₁) (not_added (.inr (Nat.le_refl _))) (not_edge_fork_exit h₁ h₂)
  refine ⟨?_, hentry, hexit, ?_⟩
  · exact (((hext.addVertex.addEdges hentry (hin₁ h₁.entry) _).addEdges hentry (hin₂ h₂.entry)
      _).addEdges (hin₁ h₁.exit) hexit _).addEdges (hin₂ h₂.exit) hexit _
  ext w
  rw [mem_paths, Language.mem_add]
  constructor
  · intro hp
    obtain ⟨a, v, w, he, hp, rfl⟩ := hp.exists_step (Nat.ne_of_lt hlt₂)
    obtain ⟨rfl, rfl | rfl⟩ := (edge_fork_entry hg h₁ h₂ a v).1 he
    · exact .inl ((hfirst w).1 hp)
    · exact .inr ((hsecond w).1 hp)
  · rintro (hw | hw)
    · exact .step ((edge_fork_entry hg h₁ h₂ none _).2 ⟨rfl, .inl rfl⟩) ((hfirst w).2 hw)
    · exact .step ((edge_fork_entry hg h₁ h₂ none _).2 ⟨rfl, .inr rfl⟩) ((hsecond w).2 hw)

/-- With the entry of a fragment as its start and the exit accepting, a graph reads the fragment. -/
theorem Built.language (h : Built .empty g' f L) :
    ((g'.setStart f.entry true).setAccept f.exit true).language = L := by
  have hstart : ∀ u, ((g'.setStart f.entry true).setAccept f.exit true).start u ↔ u = f.entry := by
    simp [Graph.setStart, Graph.setAccept, h.start, Graph.empty]
  have haccept : ∀ u, ((g'.setStart f.entry true).setAccept f.exit true).accept u ↔
      u = f.exit := by
    simp [Graph.setStart, Graph.setAccept, h.accept, Graph.empty]
  ext w
  rw [← h.paths, mem_paths, mem_language]
  simp only [hstart, haccept, ↓existsAndEq, true_and]
  exact ⟨.mono fun _ _ _ => id, .mono fun _ _ _ => id⟩

end RegularLanguages.Graph
