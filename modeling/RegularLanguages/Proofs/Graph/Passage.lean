import RegularLanguages.Proofs.Graph.Fragment

/-!
# Passages through a fragment

The entry of a fragment can have edges into it from within, and be its exit, so a walk through the
fragment may come by both many times. What keeps it on a text of the fragment is that the fragment
stays `Sealed` when others are put around it: from outside, edges lead only into the entry and out
of the exit, and those inside are as they were. This is kept because the entry or exit of what is
around it, where edges are still to be added, is its own entry or exit or lies outside.
-/

namespace RegularLanguages.Graph

/-- Vertices numbered below the next one are all that the graph speaks of. -/
structure Numbered (g : Graph) : Prop where
  edge : ∀ u a v, g.edge u a v → u < g.next ∧ v < g.next
  start : ∀ u, g.start u → u < g.next
  accept : ∀ u, g.accept u → u < g.next

/-- The edges of `h` that stay in a part. -/
def within (h : Graph) (R : Nat → Prop) : Graph :=
  { h with edge := fun u a v => R u ∧ h.edge u a v ∧ R v }

/-- A run can come to `u` from outside of the part, or begin there. -/
def Enters (h : Graph) (R : Nat → Prop) (u : Nat) : Prop :=
  R u ∧ (h.start u ∨ ∃ x a, ¬R x ∧ h.edge x a u)

/-- A run can go on from `u` outside of the part, or end there. -/
def Leaves (h : Graph) (R : Nat → Prop) (u : Nat) : Prop :=
  R u ∧ (h.accept u ∨ ∃ a x, h.edge u a x ∧ ¬R x)

/-- The text is read on a stay in the part, from where a run enters it to where a run leaves it. -/
def Passage (h : Graph) (R : Nat → Prop) (w : List Char) : Prop :=
  ∃ u v, h.Enters R u ∧ (h.within R).Path u w v ∧ h.Leaves R v

variable {g₀ g g' h h' h₁ h₂ : Graph} {f f₁ f₂ F : Fragment} {L L₁ L₂ : Language Char}
  {s t : Nat} {w : List Char}

/-- Of the fragment that was built from `g` to `g'`, the rest of `h` touches the entry and the exit
alone. -/
structure Sealed (g g' : Graph) (f : Fragment) (h : Graph) : Prop where
  inside : ∀ u a v, Added g g' u → Added g g' v → (h.edge u a v ↔ g'.edge u a v)
  into : ∀ u a v, ¬Added g g' u → Added g g' v → h.edge u a v → a = none ∧ v = f.entry
  out : ∀ u a v, Added g g' u → ¬Added g g' v → h.edge u a v → u = f.exit ∧ a = none
  start : ∀ u, Added g g' u → h.start u → u = f.entry
  accept : ∀ u, Added g g' u → h.accept u → u = f.exit

/-! ## What is read on the way through -/

section Use

variable (hb : Built g g' f L) (hs : Sealed g g' f h)
include hb hs

theorem Built.paths_within : (h.within (Added g g')).paths f.entry f.exit = L := by
  have hin : ∀ u a v, (h.within (Added g g')).edge u a v → g'.edge u a v := fun u a v he =>
    (hs.inside u a v he.1 he.2.2).1 he.2.1
  ext w
  rw [mem_paths]
  constructor
  · intro hp
    rw [← hb.paths]
    exact hp.mono hin
  · refine hb.path fun u a v hu he => ?_
    obtain ⟨-, hv⟩ := hb.new u a v hu.1 he
    exact ⟨hu, (hs.inside u a v hu hv).2 he, hv⟩

/-- A stay in a sealed fragment reads a text of it. -/
theorem Built.mem_of_passage (hw : h.Passage (Added g g') w) : w ∈ L := by
  obtain ⟨u, v, ⟨hu, henter⟩, hp, hv, hleave⟩ := hw
  have hentry : u = f.entry := by
    rcases henter with hstart | ⟨x, a, hx, he⟩
    · exact hs.start u hu hstart
    · exact (hs.into x a u hx hu he).2
  have hexit : v = f.exit := by
    rcases hleave with haccept | ⟨a, x, he, hx⟩
    · exact hs.accept v hv haccept
    · exact (hs.out v a x hv hx he).1
  rw [← hb.paths_within hs]
  exact hentry ▸ hexit ▸ hp

end Use

/-- In `h`, the fragment for `L` is sealed and read as `L`. -/
structure Composed (g g' : Graph) (f : Fragment) (L : Language Char) (h : Graph) : Prop
    extends Sealed g g' f h where
  paths : (h.within (Added g g')).paths f.entry f.exit = L
  passages : ∀ w, h.Passage (Added g g') w → w ∈ L

theorem Built.composed (hb : Built g g' f L) (hs : Sealed g g' f h) : Composed g g' f L h :=
  ⟨hs, hb.paths_within hs, fun _ => hb.mem_of_passage hs⟩

/-! ## What keeps a fragment sealed -/

theorem Sealed.extend (hs : Sealed g g' f h) (hle : g'.next ≤ h.next) (hh : Extends h h') :
    Sealed g g' f h' where
  inside u a v hu hv := by
    rw [hh.old u a v (hu.2.trans_le hle)]
    exact hs.inside u a v hu hv
  into u a v hu hv he := by
    by_cases hlt : u < h.next
    · exact hs.into u a v hu hv ((hh.old u a v hlt).1 he)
    · have hnew := (hh.new u a v (Nat.le_of_not_lt hlt) he).2
      exact absurd (hv.2.trans_le hle) (Nat.not_lt_of_le hnew.1)
  out u a v hu hv he := hs.out u a v hu hv ((hh.old u a v (hu.2.trans_le hle)).1 he)
  start u hu hu' := hs.start u hu (hh.start ▸ hu')
  accept u hu hu' := hs.accept u hu (hh.accept ▸ hu')

theorem Sealed.addVertex (hs : Sealed g g' f h) : Sealed g g' f h.addVertex :=
  ⟨hs.inside, hs.into, hs.out, hs.start, hs.accept⟩

/-- An edge that is added may begin at the exit or end at the entry. -/
theorem Sealed.link (hs : Sealed g g' f h) (hsource : Added g g' s → s = f.exit ∧ ¬Added g g' t)
    (htarget : Added g g' t → t = f.entry) : Sealed g g' f (h.link s t) where
  inside u a v hu hv := by
    rw [edge_link, hs.inside u a v hu hv]
    refine or_iff_right ?_
    rintro ⟨rfl, -, rfl⟩
    exact (hsource hu).2 hv
  into u a v hu hv he := by
    rcases he with ⟨-, rfl, rfl⟩ | he
    · exact ⟨rfl, htarget hv⟩
    · exact hs.into u a v hu hv he
  out u a v hu hv he := by
    rcases he with ⟨rfl, rfl, -⟩ | he
    · exact ⟨(hsource hu).1, rfl⟩
    · exact hs.out u a v hu hv he
  start := hs.start
  accept := hs.accept

theorem Built.sealed (hb : Built g g' f L) (hg : g.Numbered) : Sealed g g' f g' where
  inside _ _ _ _ _ := Iff.rfl
  into u a v hu hv he := by
    by_cases hlt : u < g.next
    · exact absurd (hg.edge u a v ((hb.old u a v hlt).1 he)).2 (Nat.not_lt_of_le hv.1)
    · exact absurd (hb.new u a v (Nat.le_of_not_lt hlt) he).1 hu
  out u a v hu hv he := absurd (hb.new u a v hu.1 he).2 hv
  start u hu hu' := absurd (hg.start u (hb.start ▸ hu')) (Nat.not_lt_of_le hu.1)
  accept u hu hu' := absurd (hg.accept u (hb.accept ▸ hu')) (Nat.not_lt_of_le hu.1)

/-! ## Fragments in fragments -/

/-- A sealed fragment in the fragment `F`, which was built from `g₀` to `h`. Where both have a
vertex as their entry, or as the exit, the outer one will pass on edges to the inner one. -/
structure Nested (g₀ g g' : Graph) (f : Fragment) (h : Graph) (F : Fragment) : Prop
    extends Sealed g g' f h where
  le_next : g₀.next ≤ g.next
  next_le : g'.next ≤ h.next
  entry : Added g g' F.entry → F.entry = f.entry
  exit : Added g g' F.exit → F.exit = f.exit

theorem Built.nested (hb : Built g g' f L) (hg : g.Numbered) : Nested g g g' f g' f where
  toSealed := hb.sealed hg
  le_next := Nat.le_refl _
  next_le := Nat.le_refl _
  entry _ := rfl
  exit _ := rfl

theorem Nested.append_left (hn : Nested g₀ g g' f h F) (hb : Built h h₂ f₂ L₂) :
    Nested g₀ g g' f (h₂.link F.exit f₂.entry) ⟨F.entry, f₂.exit⟩ := by
  have hentry : ¬Added g g' f₂.entry := not_added (.inr (hn.next_le.trans hb.entry.1))
  have hexit : ¬Added g g' f₂.exit := not_added (.inr (hn.next_le.trans hb.exit.1))
  refine ⟨?_, hn.le_next, hn.next_le.trans hb.next_le, hn.entry, fun hu => absurd hu hexit⟩
  exact (hn.extend hn.next_le hb.toExtends).link (fun hu => ⟨hn.exit hu, hentry⟩)
    fun hu => absurd hu hentry

theorem Nested.append_right (hn : Nested h g g' f h₂ f₂) (hb : Built g₀ h F L) :
    Nested g₀ g g' f (h₂.link F.exit f₂.entry) ⟨F.entry, f₂.exit⟩ := by
  have hentry : ¬Added g g' F.entry := not_added (.inl (hb.entry.2.trans_le hn.le_next))
  have hexit : ¬Added g g' F.exit := not_added (.inl (hb.exit.2.trans_le hn.le_next))
  refine ⟨?_, hb.next_le.trans hn.le_next, hn.next_le, fun hu => absurd hu hentry, hn.exit⟩
  exact hn.link (fun hu => absurd hu hexit) hn.entry

theorem Nested.loop (hn : Nested g₀.addVertex g g' f h F) :
    Nested g₀ g g' f ((h.link g₀.next F.entry).link F.exit g₀.next) ⟨g₀.next, g₀.next⟩ := by
  have hhub : ¬Added g g' g₀.next := not_added (.inl hn.le_next)
  refine ⟨?_, Nat.le_of_succ_le hn.le_next, hn.next_le, fun hu => absurd hu hhub,
    fun hu => absurd hu hhub⟩
  exact (hn.link (fun hu => absurd hu hhub) hn.entry).link (fun hu => ⟨hn.exit hu, hhub⟩)
    fun hu => absurd hu hhub

theorem Nested.fork_left (hn : Nested g₀.addVertex g g' f h₁ f₁) (hb : Built h₁ h₂ f₂ L₂) :
    Nested g₀ g g' f (h₂.fork g₀.next f₁ f₂) ⟨g₀.next, h₂.next⟩ := by
  have hle := hn.next_le.trans hb.next_le
  have hfrom : ¬Added g g' g₀.next := not_added (.inl hn.le_next)
  have hto : ¬Added g g' h₂.next := not_added (.inr hle)
  have hentry : ¬Added g g' f₂.entry := not_added (.inr (hn.next_le.trans hb.entry.1))
  have hexit : ¬Added g g' f₂.exit := not_added (.inr (hn.next_le.trans hb.exit.1))
  refine ⟨?_, Nat.le_of_succ_le hn.le_next, Nat.le_succ_of_le hle, fun hu => absurd hu hfrom,
    fun hu => absurd hu hto⟩
  have hentries := ((hn.extend hn.next_le hb.toExtends).addVertex.link
    (fun hu => absurd hu hfrom) hn.entry).link (fun hu => absurd hu hfrom)
    fun hu => absurd hu hentry
  exact (hentries.link (fun hu => ⟨hn.exit hu, hto⟩) fun hu => absurd hu hto).link
    (fun hu => absurd hu hexit) fun hu => absurd hu hto

theorem Nested.fork_right (hn : Nested h₁ g g' f h₂ f₂) (hb : Built g₀.addVertex h₁ f₁ L₁) :
    Nested g₀ g g' f (h₂.fork g₀.next f₁ f₂) ⟨g₀.next, h₂.next⟩ := by
  have hle := hb.next_le.trans hn.le_next
  have hfrom : ¬Added g g' g₀.next := not_added (.inl hle)
  have hto : ¬Added g g' h₂.next := not_added (.inr hn.next_le)
  have hentry : ¬Added g g' f₁.entry := not_added (.inl (hb.entry.2.trans_le hn.le_next))
  have hexit : ¬Added g g' f₁.exit := not_added (.inl (hb.exit.2.trans_le hn.le_next))
  refine ⟨?_, Nat.le_of_succ_le hle, Nat.le_succ_of_le hn.next_le, fun hu => absurd hu hfrom,
    fun hu => absurd hu hto⟩
  have hentries := (hn.addVertex.link (fun hu => absurd hu hfrom) fun hu => absurd hu hentry).link
    (fun hu => absurd hu hfrom) hn.entry
  exact (hentries.link (fun hu => absurd hu hexit) fun hu => absurd hu hto).link
    (fun hu => ⟨hn.exit hu, hto⟩) fun hu => absurd hu hto

/-- The fragment around becomes all that runs pass through. -/
theorem Nested.ends (hn : Nested g₀ g g' f h F) :
    Sealed g g' f ((h.setStart F.entry true).setAccept F.exit true) where
  inside := hn.inside
  into := hn.into
  out := hn.out
  start u hu hu' := by
    simp only [setStart, setAccept] at hu'
    split at hu'
    · rename_i heq
      exact heq.trans (hn.entry (heq ▸ hu))
    · exact hn.start u hu hu'
  accept u hu hu' := by
    simp only [setStart, setAccept] at hu'
    split at hu'
    · rename_i heq
      exact heq.trans (hn.exit (heq ▸ hu))
    · exact hn.accept u hu hu'

end RegularLanguages.Graph
