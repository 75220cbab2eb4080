import RegularLanguages.Proofs.Chart.Language
import RegularLanguages.Proofs.Graph.Basic

/-!
# Charts as graphs

A chart is a graph in which a vertex has at most one edge on a character and none that reads
nothing. `embed` is that graph as far as the states before a number go; with all states its walks
are those of the chart.
-/

namespace RegularLanguages

namespace Graph

/-- Adds edges from `id` that read one character each. -/
def addMoves (g : Graph) (id : Nat) (leads : Char → Nat → Prop) : Graph :=
  { g with edge := fun u a v => (u = id ∧ ∃ c, a = some c ∧ leads c v) ∨ g.edge u a v }

/-- The edges to one target, and then the others. -/
theorem addMoves_addEdges (g : Graph) {id target : Nat} {k : CharClass}
    {leads leads' : Char → Nat → Prop}
    (h : ∀ c v, leads' c v ↔ (c ∈ k ∧ v = target) ∨ leads c v) :
    (g.addEdges id (.chars k) target).addMoves id leads = g.addMoves id leads' := by
  refine eq_of_iff rfl (fun _ => .rfl) (fun _ => .rfl) (fun _ => .rfl) fun u a v => ?_
  simp only [addMoves, addEdges, Label.Reads, h]
  constructor
  · rintro (⟨hu, c, ha, hc⟩ | ⟨hu, ⟨c, hc, ha⟩, hv⟩ | he)
    · exact .inl ⟨hu, c, ha, .inr hc⟩
    · exact .inl ⟨hu, c, ha, .inl ⟨hc, hv⟩⟩
    · exact .inr he
  · rintro (⟨hu, c, ha, ⟨hc, hv⟩ | hc⟩ | he)
    · exact .inr (.inl ⟨hu, ⟨c, hc, ha⟩, hv⟩)
    · exact .inl ⟨hu, c, ha, hc⟩
    · exact .inr (.inr he)

end Graph

namespace Chart

/-- The graph with all vertices, and with the roles and edges of those before `n`. -/
def embed (g : Chart) (n : Nat) : Graph where
  next := g.size
  vertex u := u < g.size
  start u := u < n ∧ g.start u
  accept u := u < n ∧ g.accept u
  edge u a v := u < n ∧ ∃ c, a = some c ∧ g.move u c = some v

variable {g : Chart} {u v : Nat} {w : List Char}

/-- The roles and the edges of one more state. -/
theorem embed_succ (g : Chart) {n : Nat} {isStart isAccept : Bool} {leads : Char → Nat → Prop}
    (hstart : isStart = true ↔ g.start n) (haccept : isAccept = true ↔ g.accept n)
    (hleads : ∀ c v, leads c v ↔ g.move n c = some v) :
    (((g.embed n).setStart n isStart).setAccept n isAccept).addMoves n leads =
      g.embed (n + 1) := by
  have hrole {b : Bool} {P : Nat → Prop} (hb : b = true ↔ P n) (u : Nat) :
      (if u = n then b = true else u < n ∧ P u) ↔ u < n + 1 ∧ P u := by
    split
    · rename_i hu
      rw [hb, hu, and_iff_right (Nat.lt_succ_self n)]
    · rename_i hu
      have hlt : u < n ↔ u < n + 1 := by omega
      rw [hlt]
  refine Graph.eq_of_iff rfl (fun _ => .rfl) (hrole hstart) (hrole haccept) fun u a v => ?_
  show (u = n ∧ ∃ c, a = some c ∧ leads c v) ∨ (u < n ∧ ∃ c, a = some c ∧ g.move u c = some v) ↔
    u < n + 1 ∧ ∃ c, a = some c ∧ g.move u c = some v
  have hlt : u < n + 1 ↔ u = n ∨ u < n := by omega
  rw [hlt, or_and_right]
  refine or_congr (and_congr_right fun hu => ?_) .rfl
  simp only [hleads, hu]

theorem edge_embed_iff (h : g.Closed) {c : Char} :
    (g.embed g.size).edge u (some c) v ↔ g.move u c = some v := by
  constructor
  · rintro ⟨-, c, hc, hmove⟩
    cases hc
    exact hmove
  · exact fun hmove => ⟨(h.move_lt u c v hmove).1, c, rfl, hmove⟩

theorem path_embed_iff (h : g.Closed) : (g.embed g.size).Path u w v ↔ g.walk u w = some v := by
  constructor
  · intro hp
    induction hp with
    | nil u => rfl
    | step he _ ih =>
      obtain ⟨-, c, rfl, hmove⟩ := he
      show (g.move _ c).bind _ = _
      rw [hmove]
      exact ih
  · intro hw
    induction w generalizing u with
    | nil =>
      cases hw
      exact .nil _
    | cons c rest ih =>
      obtain ⟨t, ht, hrest⟩ := Option.bind_eq_some_iff.1 hw
      exact .step (a := some c) ⟨(h.move_lt u c t ht).1, c, rfl, ht⟩ (ih hrest)

theorem language_embed (h : g.Closed) (hpos : 0 < g.size) (hstart : ∀ q, g.start q ↔ q = 0) :
    (g.embed g.size).language = g.language := by
  ext w
  rw [Graph.mem_language, mem_language]
  simp only [path_embed_iff h]
  constructor
  · rintro ⟨u, v, ⟨-, hu⟩, ⟨-, hv⟩, hw⟩
    obtain rfl := (hstart u).1 hu
    exact ⟨v, hw, hv⟩
  · rintro ⟨v, hw, hv⟩
    exact ⟨0, v, ⟨hpos, (hstart 0).2 rfl⟩, ⟨h.accept_lt v hv, hv⟩, hw⟩

end Chart

end RegularLanguages
