import RegularLanguages.Proofs.Graph.Passage
import RegularLanguages.Proofs.Nfa.Change
import RegularLanguages.Proofs.Nfa.OfPattern
import RegularLanguages.Proofs.Pattern.Closed

/-!
# The fragments of the parts of a pattern

Building a pattern builds its parts, each on the machine that the parts before it have left. What is
built later may add edges into the entry and out of the exit of a fragment and nothing else, up to
the finished machine, where a run reads a text of the part on every stay in its fragment.
-/

namespace RegularLanguages

theorem Nfa.Valid.numbered {m : Nfa} (h : m.Valid) : m.graph.Numbered where
  edge _ _ _ he := ⟨lt_of_vertex (h.vertex_of_edge he).1, lt_of_vertex (h.vertex_of_edge he).2⟩
  start _ hu := lt_of_vertex (hu.imp fun _ _ _ => .intro)
  accept _ hu := lt_of_vertex (hu.imp fun _ _ _ => .intro)

namespace Fragment

/-! ## The calls of a build -/

/-- Putting the parts after the fragment `f` builds the part `p` on `n`. -/
inductive Follows : List Pattern → Fragment → Nfa → Pattern → Nfa → Prop where
  | next (p : Pattern) (rest : List Pattern) (f : Fragment) (m : Nfa) :
      Follows (p :: rest) f m p m
  | later {p q : Pattern} {rest : List Pattern} {f f₁ : Fragment} {m m₁ m₂ n : Nfa} :
      (build p m).outcome = .ok (f₁, m₁) →
      (m₁.add f.exit .epsilon f₁.entry).outcome = .ok m₂ →
      Follows rest ⟨f.entry, f₁.exit⟩ m₂ q n → Follows (p :: rest) f m q n

/-- Building `p` on `m` builds `q` on `n`, on the way or as a whole. -/
inductive Calls : Pattern → Nfa → Pattern → Nfa → Prop where
  | self (p : Pattern) (m : Nfa) : Calls p m p m
  | first {p q : Pattern} {rest : List Pattern} {m n : Nfa} :
      Calls p m q n → Calls (.concat (p :: rest)) m q n
  | part {p p' q : Pattern} {rest : List Pattern} {m m₁ n n' : Nfa} {f : Fragment} :
      (build p m).outcome = .ok (f, m₁) → Follows rest f m₁ p' n' → Calls p' n' q n →
      Calls (.concat (p :: rest)) m q n
  | left {p p' q : Pattern} {m n : Nfa} :
      Calls p m.addState.2 q n → Calls (.alternation p p') m q n
  | right {p p' q : Pattern} {m m₁ n : Nfa} {f : Fragment} :
      (build p m.addState.2).outcome = .ok (f, m₁) → Calls p' m₁ q n →
      Calls (.alternation p p') m q n
  | base {p q : Pattern} {m n : Nfa} : Calls p m.addState.2 q n → Calls (.star p) m q n

variable {p q : Pattern} {ps rest : List Pattern} {m m₁ m₂ m' n : Nfa} {f F : Fragment}
  {g₀ g g' : Graph} {L : Language Char}

/-! ## Fragments in the fragments around them -/

/-- The parts put after a fragment keep what is nested in it. -/
theorem nested_buildAfter {f₀ : Fragment} (hm : m.Valid) (hb : Graph.Built g₀ m.graph f₀ L)
    (h : (buildAfter ps f₀ m).outcome = .ok (F, m'))
    (hn : Graph.Nested g₀ g g' f m.graph f₀) : Graph.Nested g₀ g g' f m'.graph F := by
  induction ps generalizing m f₀ L with
  | nil =>
    rw [buildAfter] at h
    cases h
    exact hn
  | cons p rest ih =>
    obtain ⟨f₁, m₁, hf₁, hm₁, hb₁⟩ := build_spec p hm
    obtain ⟨m₂, hm₂, hv₂, hg₂, hb₂⟩ := append_spec hb hm₁ hb₁
    simp only [buildAfter, Logged.outcome_bind, hf₁, hm₂, Logged.ok_bind] at h
    exact ih hv₂ hb₂ h (hg₂ ▸ hn.append_left hb₁)

/-- What is nested in a part that is put after a fragment is nested in the whole. -/
theorem Follows.nested {f₀ : Fragment} (hfollows : Follows ps f₀ m p n) (hm : m.Valid)
    (hb : Graph.Built g₀ m.graph f₀ L) (h : (buildAfter ps f₀ m).outcome = .ok (F, m')) :
    n.Valid ∧ ∃ f₁ n₁, (build p n).outcome = .ok (f₁, n₁) ∧
      ∀ g g' f, Graph.Nested n.graph g g' f n₁.graph f₁ →
        Graph.Nested g₀ g g' f m'.graph F := by
  induction hfollows generalizing L with
  | next p rest f₀ m =>
    obtain ⟨f₁, m₁, hf₁, hm₁, hb₁⟩ := build_spec p hm
    obtain ⟨m₂, hm₂, hv₂, hg₂, hb₂⟩ := append_spec hb hm₁ hb₁
    simp only [buildAfter, Logged.outcome_bind, hf₁, hm₂, Logged.ok_bind] at h
    refine ⟨hm, f₁, m₁, hf₁, fun g g' f hn => ?_⟩
    exact nested_buildAfter hv₂ hb₂ h (hg₂ ▸ hn.append_right hb)
  | later hf₁ hadd _ ih =>
    obtain ⟨hm₁, hb₁⟩ := of_build hm hf₁
    obtain ⟨m₂, hm₂, hv₂, -, hb₂⟩ := append_spec hb hm₁ hb₁
    cases hm₂.symm.trans hadd
    simp only [buildAfter, Logged.outcome_bind, hf₁, hadd, Logged.ok_bind] at h
    exact ih hv₂ hb₂ h

/-- What a build calls is nested in the fragment that the build gives. -/
theorem Calls.nested (hcalls : Calls p m q n) (hm : m.Valid)
    (h : (build p m).outcome = .ok (F, m')) : n.Valid ∧ ∃ f n',
    (build q n).outcome = .ok (f, n') ∧
      Graph.Nested m.graph n.graph n'.graph f m'.graph F := by
  induction hcalls generalizing F m' with
  | self p m => exact ⟨hm, F, m', h, (of_build hm h).2.nested hm.numbered⟩
  | @first p _ _ m _ _ ih =>
    obtain ⟨f₁, m₁, hf₁, hm₁, hb₁⟩ := build_spec p hm
    obtain ⟨hv, f, n', hf, hn⟩ := ih hm hf₁
    simp only [build, Logged.outcome_bind, hf₁, Logged.ok_bind] at h
    exact ⟨hv, f, n', hf, nested_buildAfter hm₁ hb₁ h hn⟩
  | part hf₁ hfollows _ ih =>
    obtain ⟨hm₁, hb₁⟩ := of_build hm hf₁
    simp only [build, Logged.outcome_bind, hf₁, Logged.ok_bind] at h
    obtain ⟨hv₁, f₂, n₂, hf₂, hlift⟩ := hfollows.nested hm₁ hb₁ h
    obtain ⟨hv, f, n', hf, hn⟩ := ih hv₁ hf₂
    exact ⟨hv, f, n', hf, hlift _ _ _ hn⟩
  | @left p p' _ m _ _ ih =>
    obtain ⟨f₁, m₁, hf₁, hm₁, hb₁⟩ := build_spec p hm.addState
    obtain ⟨f₂, m₂, hf₂, hm₂, hb₂⟩ := build_spec p' hm₁
    obtain ⟨m₃, hm₃, -, hg₃⟩ := build_alternation hf₁ hf₂ hm₂ hb₁ hb₂
    cases hm₃.symm.trans h
    obtain ⟨hv, f, n', hf, hn⟩ := ih hm.addState hf₁
    rw [Nfa.graph_addState] at hn
    exact ⟨hv, f, n', hf, hg₃ ▸ hn.fork_left hb₂⟩
  | @right p p' _ m _ _ _ hf₁ _ ih =>
    obtain ⟨hm₁, hb₁⟩ := of_build hm.addState hf₁
    obtain ⟨f₂, m₂, hf₂, hm₂, hb₂⟩ := build_spec p' hm₁
    obtain ⟨m₃, hm₃, -, hg₃⟩ := build_alternation hf₁ hf₂ hm₂ hb₁ hb₂
    cases hm₃.symm.trans h
    obtain ⟨hv, f, n', hf, hn⟩ := ih hm₁ hf₂
    rw [Nfa.graph_addState] at hb₁
    exact ⟨hv, f, n', hf, hg₃ ▸ hn.fork_right hb₁⟩
  | @base p _ m _ _ ih =>
    obtain ⟨f₁, m₁, hf₁, hm₁, hb₁⟩ := build_spec p hm.addState
    obtain ⟨m₃, hm₃, -, hg₃⟩ := build_star hf₁ hm₁ hb₁
    cases hm₃.symm.trans h
    obtain ⟨hv, f, n', hf, hn⟩ := ih hm.addState hf₁
    rw [Nfa.graph_addState] at hn
    exact ⟨hv, f, n', hf, hg₃ ▸ hn.loop⟩

/-! ## The parts of a pattern -/

theorem Follows.mem (hfollows : Follows ps f m p n) : p ∈ ps := by
  induction hfollows with
  | next p rest f m => exact List.mem_cons_self ..
  | later _ _ _ ih => exact List.mem_cons_of_mem _ ih

theorem exists_follows (hp : p ∈ ps) (hm : m.Valid) (hb : Graph.Built g m.graph f L) :
    ∃ n, n.Valid ∧ Follows ps f m p n := by
  induction ps generalizing m f L with
  | nil => cases hp
  | cons p₁ rest ih =>
    rcases List.mem_cons.1 hp with rfl | hp
    · exact ⟨m, hm, .next p rest f m⟩
    · obtain ⟨f₁, m₁, hf₁, hm₁, hb₁⟩ := build_spec p₁ hm
      obtain ⟨m₂, hm₂, hv₂, -, hb₂⟩ := append_spec hb hm₁ hb₁
      obtain ⟨n, hn, hfollows⟩ := ih hp hv₂ hb₂
      exact ⟨n, hn, .later hf₁ hm₂ hfollows⟩

theorem exists_calls (hocc : Pattern.Occurs q p) (hm : m.Valid) : ∃ n, Calls p m q n := by
  induction hocc generalizing m with
  | here => exact ⟨m, .self q m⟩
  | @part p₁ parts hmem _ ih =>
    cases parts with
    | nil => cases hmem
    | cons p₀ rest =>
      rcases List.mem_cons.1 hmem with rfl | hmem
      · exact (ih hm).imp fun _ => .first
      · obtain ⟨f₀, m₀, hf₀, hm₀, hb₀⟩ := build_spec p₀ hm
        obtain ⟨n₁, hn₁, hfollows⟩ := exists_follows hmem hm₀ hb₀
        exact (ih hn₁).imp fun _ => .part hf₀ hfollows
  | left _ ih => exact (ih hm.addState).imp fun _ => .left
  | @right p p' _ ih =>
    obtain ⟨f₁, m₁, hf₁, hm₁, -⟩ := build_spec p hm.addState
    exact (ih hm₁).imp fun _ => .right hf₁
  | base _ ih => exact (ih hm.addState).imp fun _ => .base

theorem Calls.occurs (hcalls : Calls p m q n) : Pattern.Occurs q p := by
  induction hcalls with
  | self p m => exact .here
  | first _ ih => exact .part (List.mem_cons_self ..) ih
  | part _ hfollows _ ih => exact .part (List.mem_cons_of_mem _ hfollows.mem) ih
  | left _ ih => exact .left ih
  | right _ _ ih => exact .right ih
  | base _ ih => exact .base ih

/-- The patterns that are built are the nodes of the tree. -/
theorem exists_calls_iff (hm : m.Valid) : (∃ n, Calls p m q n) ↔ Pattern.Occurs q p :=
  ⟨fun h => h.elim fun _ => Calls.occurs, fun hocc => exists_calls hocc hm⟩

/-- The call gives a fragment for `q` that is composed with the rest in `h`. -/
def Composes (q : Pattern) (n : Nfa) (h : Graph) : Prop :=
  ∃ f n', n.Valid ∧ (build q n).outcome = .ok (f, n') ∧
    Graph.Built n.graph n'.graph f q.language ∧ Graph.Composed n.graph n'.graph f q.language h

/-- On any machine, building adds new states, edges among these and a fragment that reads the
pattern. All nodes of the pattern are built on the way. Their fragments stay sealed in what is built
around them, and a run of the finished machine reads a text of the node on every stay in its
fragment. -/
theorem build_composes (p : Pattern) :
    (∀ m, m.Valid → ∃ f m', (build p m).outcome = .ok (f, m') ∧ m'.Valid ∧
      Graph.Built m.graph m'.graph f p.language ∧
      (∀ q, (∃ n, Calls p m q n) ↔ Pattern.Occurs q p) ∧
      ∀ q n, Calls p m q n → Composes q n m'.graph) ∧
    ∃ m, (Nfa.ofPattern p).outcome = .ok m ∧
      (∀ q, (∃ n, Calls p .empty q n) ↔ Pattern.Occurs q p) ∧
      ∀ q n, Calls p .empty q n → Composes q n m.graph := by
  constructor
  · intro m hm
    obtain ⟨F, m', hF, hm', hb⟩ := build_spec p hm
    refine ⟨F, m', hF, hm', hb, fun _ => exists_calls_iff hm, fun q n hcalls => ?_⟩
    obtain ⟨hn, f, n', hf, hnested⟩ := hcalls.nested hm hF
    obtain ⟨-, hb'⟩ := of_build hn hf
    exact ⟨f, n', hn, hf, hb', hb'.composed hnested.toSealed⟩
  · obtain ⟨F, m, m', hF, hm', -, hgraph⟩ := Nfa.exists_ofPattern p
    refine ⟨m', hm', fun _ => exists_calls_iff Nfa.valid_empty, fun q n hcalls => ?_⟩
    obtain ⟨hn, f, n', hf, hnested⟩ := hcalls.nested Nfa.valid_empty hF
    obtain ⟨-, hb'⟩ := of_build hn hf
    exact ⟨f, n', hn, hf, hb', hb'.composed (hgraph ▸ hnested.ends)⟩

/-- A repetition of parts of which the last is a repetition. -/
def repeated : Pattern :=
  .star (.concat [.literal (.single 'a'), .star (.literal (.single 'b'))])

/-- On a machine that has states and edges already. -/
theorem exists_composes_repeated : ∃ m, (Nfa.empty.applyAll Nfa.tangled).outcome = .ok m ∧
    m.Valid ∧ ∃ m' n, (build repeated m).outcome = .ok (⟨4, 4⟩, m') ∧
      Calls repeated m (.star (.literal (.single 'b'))) n ∧
      Composes (.star (.literal (.single 'b'))) n m'.graph := by
  obtain ⟨m, hm⟩ := Nfa.exists_tangled
  have hvalid : m.Valid := Nfa.Reachable.valid ⟨_, hm⟩
  obtain ⟨f, m', hf, -, -, hnodes, hcomposes⟩ := (build_composes repeated).1 m hvalid
  obtain ⟨n, hcalls⟩ := (hnodes _).2 (.base (.part (.tail _ (.head _)) .here))
  have hentry : ((Nfa.empty.applyAll Nfa.tangled).outcome >>= fun m =>
      (build repeated m).outcome.map (·.1)).toOption = some ⟨4, 4⟩ := by decide +kernel
  rw [hm, Logged.ok_bind, hf] at hentry
  cases hentry
  exact ⟨m, hm, hvalid, m', n, hf, hcalls, hcomposes _ n hcalls⟩

end Fragment

end RegularLanguages
