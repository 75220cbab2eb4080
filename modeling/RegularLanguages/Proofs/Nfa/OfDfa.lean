import RegularLanguages.Nfa.OfDfa
import RegularLanguages.Proofs.Chart.Embedding
import RegularLanguages.Proofs.Dfa.Copy
import RegularLanguages.Proofs.Nfa.Addition

/-!
# The nondeterministic machine of a deterministic one

Embedding a valid machine never faults. State by state the graph of the new machine becomes that of
the chart, whatever blocks the two alphabets have.
-/

namespace RegularLanguages

namespace Nfa

variable {m : Nfa}

/-- A machine with this many states and nothing else. -/
theorem state?_replicate (n u : Nat) :
    state? ⟨.trivial, Array.replicate n (some .blank)⟩ u = if u < n then some .blank else none := by
  simp only [state?, Array.getElem?_replicate]
  split <;> rfl

end Nfa

namespace Dfa

variable {d : Dfa} {m : Nfa} {id : Nat}

/-- The edges of one state, with the characters of their blocks. -/
theorem addRow_spec (hd : d.Valid) (hm : m.Valid) (hid : m.graph.vertex id) {es : List (Nat × Nat)}
    (hes : ∀ e ∈ es, e.1 < d.alphabet.size ∧ m.graph.vertex e.2) :
    ∃ m', (es.foldlM (fun (m : Nfa) (symbol, target) => do
        m.add id (.chars (← d.alphabet.block symbol)) target : Nfa → Nat × Nat → Logged Nfa)
        m).outcome = .ok m' ∧ m'.Valid ∧
      m'.graph = m.graph.addMoves id fun x t => (d.alphabet.index x, t) ∈ es := by
  induction es generalizing m with
  | nil =>
    refine ⟨m, rfl, hm, Graph.eq_of_iff rfl (fun _ => .rfl) (fun _ => .rfl) (fun _ => .rfl)
      fun u a v => ?_⟩
    simp [Graph.addMoves]
  | cons e rest ih =>
    obtain ⟨symbol, target⟩ := e
    obtain ⟨hsymbol, htarget⟩ := hes _ (List.mem_cons_self ..)
    obtain ⟨k, hk, hmem⟩ := hd.partition.block_eq hsymbol
    obtain ⟨m₁, hm₁, hvalid, hgraph⟩ := Nfa.add_spec hm hid htarget (.chars k)
    have hvertex : m₁.graph.vertex = m.graph.vertex := by
      rw [hgraph]
      rfl
    obtain ⟨m', hm', hvalid', hgraph'⟩ := ih hvalid (hvertex ▸ hid)
      fun e he => hvertex ▸ hes e (List.mem_cons_of_mem _ he)
    refine ⟨m', ?_, hvalid', ?_⟩
    · rw [Outcome.outcome_foldlM_cons]
      simp [hk, hm₁, hm']
    · rw [hgraph', hgraph]
      refine Graph.addMoves_addEdges m.graph fun x t => ?_
      rw [hmem, List.mem_cons, Prod.mk.injEq]

/-- What has been embedded when the states before `n` have been gone through. -/
structure Embedded (d : Dfa) (n : Nat) (m : Nfa) : Prop where
  valid : m.Valid
  graph : m.graph = d.chart.embed n

theorem embedded_zero (d : Dfa) :
    Embedded d 0 ⟨.trivial, Array.replicate d.size (some .blank)⟩ := by
  have hhas {u : Nat} {P : Nfa.State → Prop} :
      Nfa.Has ⟨.trivial, Array.replicate d.size (some .blank)⟩ u P ↔ u < d.size ∧ P .blank := by
    simp only [Nfa.Has, Nfa.state?_replicate]
    by_cases hu : u < d.size <;> simp [hu]
  have hgraph : Nfa.graph ⟨.trivial, Array.replicate d.size (some .blank)⟩ = d.chart.embed 0 := by
    refine Graph.eq_of_iff Array.size_replicate (fun u => ?_) (fun u => ?_) (fun u => ?_)
      fun u a v => ?_ <;> refine hhas.trans ?_
    · exact and_iff_left trivial
    · simp [Nfa.State.blank, Chart.embed]
    · simp [Nfa.State.blank, Chart.embed]
    · cases a <;> simp [Nfa.State.blank, Nfa.State.Edge, Nfa.State.targetsOn, Chart.embed]
  refine ⟨⟨Alphabet.partition_trivial, fun u s hs => ?_, fun u a v he => ?_⟩, hgraph⟩
  · rw [Nfa.state?_replicate] at hs
    split at hs
    · cases hs
      exact Nfa.State.valid_blank _
    · cases hs
  · rw [hgraph] at he
    exact absurd he.1 (Nat.not_lt_zero u)

theorem Embedded.step (hd : d.Valid) {n : Nat} (h : Embedded d n m) {s : State}
    (hs : d.states[n]? = some s) :
    ∃ m', (d.embedState m (n, s)).outcome = .ok m' ∧ Embedded d (n + 1) m' := by
  have hrow := hd.states n s hs
  have hn : n < d.chart.size := (Array.getElem?_eq_some_iff.1 hs).1
  obtain ⟨m₁, hm₁, hv₁, hg₁⟩ := Nfa.setStart_spec h.valid (by rw [h.graph]; exact hn) s.isStart
  obtain ⟨m₂, hm₂, hv₂, hg₂⟩ :=
    Nfa.setAccept_spec hv₁ (by rw [hg₁, h.graph]; exact hn) s.isAccept
  have hvertex : m₂.graph.vertex = fun u => u < d.chart.size := by
    rw [hg₂, hg₁, h.graph]
    rfl
  have hentry : ∀ e ∈ s.edges.entries, e.1 < d.alphabet.size ∧ m₂.graph.vertex e.2 := by
    rw [hvertex]
    exact hrow.entry_lt
  obtain ⟨m', hm', hvalid, hgraph⟩ := addRow_spec hd hv₂ (by rw [hvertex]; exact hn) hentry
  refine ⟨m', by simp [embedState, hm₁, hm₂, hm'], hvalid, ?_⟩
  rw [hgraph, hg₂, hg₁, h.graph]
  refine d.chart.embed_succ (start_iff hs).symm (accept_iff hs).symm fun c t => ?_
  rw [move_eq hs, hrow.sorted.get?_eq_some_iff]

/-- Embedding goes through all states. -/
theorem Valid.toNfa_embedded (hd : d.Valid) :
    ∃ m, d.toNfa.outcome = .ok m ∧ Embedded d d.chart.size m := by
  obtain ⟨m, hm, h⟩ := foldlM_numbered_spec (fun _ _ _ hs h => h.step hd hs) (embedded_zero d)
  exact ⟨m, by simp [toNfa, hm], h⟩

/-- The machine accepts the same texts when it is embedded. -/
theorem Proper.toNfa_spec (hd : d.Proper) :
    ∃ m, d.toNfa.outcome = .ok m ∧ m.Valid ∧ m.graph.language = d.chart.language := by
  obtain ⟨m, hm, h⟩ := hd.toValid.toNfa_embedded
  refine ⟨m, hm, h.valid, ?_⟩
  rw [h.graph]
  exact Chart.language_embed hd.closed hd.size_pos hd.start_iff

end Dfa

end RegularLanguages
