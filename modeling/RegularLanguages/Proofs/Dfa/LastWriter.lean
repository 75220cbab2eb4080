import RegularLanguages.Proofs.Dfa.Change

/-!
# The last edge counts

What a machine does on a character can be read off the changes that made it, without its alphabet.
A state leads where the last edge added from it on that character leads. If there is none, it leads
to the sink of the first completion that found an edge missing, among the completions of machines
that had the state or got it as their sink.
-/

namespace RegularLanguages.Dfa

/-- The target of the edge that a change adds from `q` on `c`. -/
def Change.edge? (q : Nat) (c : Char) : Change → Option Nat
  | .add source target k => if q = source ∧ c ∈ k then some target else none
  | _ => none

/-- Whether `q` accepts after a change of its role. -/
def Change.role? (q : Nat) : Change → Option Bool
  | .setAccept id value => if q = id then some value else none
  | _ => none

/-- The target of the last edge that the changes add from `q` on `c`. -/
def lastEdge? (cs : List Change) (q : Nat) (c : Char) : Option Nat :=
  cs.reverse.findSome? (Change.edge? q c)

/-- Whether the last change of the role of `q` makes it accept. -/
def accepting (cs : List Change) (q : Nat) : Bool :=
  (cs.reverse.findSome? (Change.role? q)).getD false

/-- The sink that the change at `n` adds: it is a completion, and the changes before it lead to a
machine that is not complete. -/
def sinkAt? (cs : List Change) (n : Nat) : Option Nat :=
  match cs[n]?, (initial.applyAll (cs.take n)).outcome with
  | some .complete, .ok d => if d.isComplete then none else some d.size
  | _, _ => none

/-- The sinks that the changes add, in order. -/
def sinks (cs : List Change) : List Nat := (List.range cs.length).filterMap (sinkAt? cs)

/-- The first sink added to a machine with the state `q`, or as the state `q`. -/
def sink? (cs : List Change) (q : Nat) : Option Nat := (sinks cs).find? (q ≤ ·)

/-- Where the changes send a character. -/
def target? (cs : List Change) (q : Nat) (c : Char) : Option Nat :=
  (lastEdge? cs q c).or (sink? cs q)

/-- Where the changes send a text, character by character. -/
def follow (cs : List Change) : Nat → List Char → Option Nat
  | q, [] => some q
  | q, c :: rest => (target? cs q c).bind fun t => follow cs t rest

variable {cs : List Change} {d d' : Dfa} {q : Nat} {c : Char}

/-! ## One more change -/

theorem lastEdge?_concat (cs : List Change) (ch : Change) (q : Nat) (c : Char) :
    lastEdge? (cs ++ [ch]) q c = (ch.edge? q c).or (lastEdge? cs q c) := by
  unfold lastEdge?
  rw [List.reverse_concat, List.findSome?_cons]
  cases ch.edge? q c <;> rfl

theorem accepting_concat (cs : List Change) (ch : Change) (q : Nat) :
    accepting (cs ++ [ch]) q = (ch.role? q).getD (accepting cs q) := by
  unfold accepting
  rw [List.reverse_concat, List.findSome?_cons]
  cases ch.role? q <;> rfl

theorem sinkAt?_concat_of_lt {n : Nat} (hn : n < cs.length) (ch : Change) :
    sinkAt? (cs ++ [ch]) n = sinkAt? cs n := by
  unfold sinkAt?
  rw [List.getElem?_append_left hn, List.take_append_of_le_length (Nat.le_of_lt hn)]

theorem sinkAt?_length (hd : (initial.applyAll cs).outcome = .ok d) (ch : Change) :
    sinkAt? (cs ++ [ch]) cs.length = match ch with
      | .complete => if d.isComplete then none else some d.size
      | _ => none := by
  unfold sinkAt?
  rw [List.getElem?_concat_length, List.take_left, hd]
  cases ch <;> rfl

theorem sinks_concat (cs : List Change) (ch : Change) :
    sinks (cs ++ [ch]) = sinks cs ++ (sinkAt? (cs ++ [ch]) cs.length).toList := by
  have hold : (List.range cs.length).filterMap (sinkAt? (cs ++ [ch])) = sinks cs :=
    List.filterMap_congr fun n hn => sinkAt?_concat_of_lt (List.mem_range.1 hn) ch
  rw [sinks, List.length_append, List.length_singleton, List.range_succ, List.filterMap_append,
    hold]
  cases hsink : sinkAt? (cs ++ [ch]) cs.length <;> simp [hsink]

/-- A change that adds no sink sends a character where its own edge does, or else as before. -/
theorem target?_concat {ch : Change} (hsink : sinkAt? (cs ++ [ch]) cs.length = none) (q : Nat)
    (c : Char) : target? (cs ++ [ch]) q c = (ch.edge? q c).or (target? cs q c) := by
  rw [target?, lastEdge?_concat, sink?, sinks_concat, hsink, Option.toList_none, List.append_nil,
    Option.or_assoc, target?, sink?]

/-- A completion sends what is missing to its sink. -/
theorem target?_concat_complete {sink : Nat}
    (hsink : sinkAt? (cs ++ [.complete]) cs.length = some sink) (q : Nat) (c : Char) :
    target? (cs ++ [.complete]) q c =
      (target? cs q c).or (if q ≤ sink then some sink else none) := by
  have hedge : Change.edge? q c .complete = none := rfl
  rw [target?, lastEdge?_concat, hedge, Option.none_or, sink?, sinks_concat, hsink,
    List.find?_append, ← Option.or_assoc, target?, sink?]
  by_cases hq : q ≤ sink <;> simp [hq]

/-! ## All changes -/

/-- The machine is what its history says. -/
structure Recorded (cs : List Change) (d : Dfa) : Prop where
  reached : (initial.applyAll cs).outcome = .ok d
  proper : d.Proper
  move : ∀ q c, d.chart.move q c = target? cs q c
  accept : ∀ q, d.chart.accept q ↔ accepting cs q = true

theorem recorded_initial : Recorded [] initial where
  reached := rfl
  proper := proper_initial
  move q c := by
    rw [chart_initial]
    rfl
  accept q := by
    rw [chart_initial]
    exact iff_of_false id nofun

theorem Recorded.move_apply (h : Recorded cs d) (ch : Change) (q : Nat) (c : Char) :
    (d.chart.apply ch).move q c = target? (cs ++ [ch]) q c := by
  have hsink := sinkAt?_length h.reached ch
  cases ch with
  | addState => rw [target?_concat hsink, ← h.move]; rfl
  | add source target k =>
    rw [target?_concat hsink, ← h.move, Change.edge?, Chart.apply, Chart.move_addEdges]
    split <;> rfl
  | setAccept id value => rw [target?_concat hsink, ← h.move]; rfl
  | complete =>
    by_cases hd : d.isComplete = true
    · rw [target?_concat (by simpa [hd] using hsink), ← h.move, Chart.apply, Chart.complete,
        if_pos ((isComplete_iff h.proper.toValid).1 hd)]
      rfl
    · rw [target?_concat_complete (by simpa [hd] using hsink), ← h.move, Chart.apply,
        Chart.complete, if_neg (mt (isComplete_iff h.proper.toValid).2 hd)]
      rfl

theorem Recorded.accept_apply (h : Recorded cs d) (ch : Change) (q : Nat) :
    (d.chart.apply ch).accept q ↔ accepting (cs ++ [ch]) q = true := by
  rw [accepting_concat]
  cases ch with
  | addState => exact h.accept q
  | add source target k => exact h.accept q
  | setAccept id value =>
    show (if q = id then value = true else d.chart.accept q) ↔
      ((if q = id then some value else none).getD (accepting cs q)) = true
    split
    · rfl
    · exact h.accept q
  | complete =>
    refine Iff.trans ?_ (h.accept q)
    rw [Chart.apply, Chart.complete]
    split <;> rfl

theorem Recorded.concat (h : Recorded cs d) {ch : Change} (hd : (ch.apply d).outcome = .ok d') :
    Recorded (cs ++ [ch]) d' := by
  obtain ⟨-, hchart⟩ := apply_spec h.proper.toValid hd
  refine ⟨?_, h.proper.apply hd, fun q c => ?_, fun q => ?_⟩
  · rw [outcome_applyAll_concat, h.reached]
    exact hd
  · rw [hchart]
    exact h.move_apply ch q c
  · rw [hchart]
    exact h.accept_apply ch q

theorem recorded_of_applyAll (h : (initial.applyAll cs).outcome = .ok d) : Recorded cs d := by
  induction cs using List.reverseRecOn generalizing d with
  | nil =>
    cases h
    exact recorded_initial
  | append_singleton cs ch ih =>
    rw [outcome_applyAll_concat] at h
    obtain ⟨d₁, hd₁, hd⟩ := Logged.bind_eq_ok_iff.1 h
    exact (ih hd₁).concat hd

theorem Recorded.walk_eq_follow (h : Recorded cs d) (q : Nat) (w : List Char) :
    d.chart.walk q w = follow cs q w := by
  induction w generalizing q with
  | nil => rfl
  | cons c rest ih =>
    rw [Chart.walk, follow, h.move]
    exact Option.bind_congr fun t _ => ih t

/-- A machine sends each character where its history says, and accepts the texts that lead from the
start to a state whose last role is to accept. -/
theorem applyAll_lastWriter (h : (initial.applyAll cs).outcome = .ok d) :
    (∀ q c, q < d.size →
      ∃ x, d.alphabet.symbolOf c = .ok x ∧ d.targetOn? q x = .ok (target? cs q c)) ∧
    ∀ w, d.accepts? w = .ok ((follow cs start w).elim false (accepting cs)) := by
  have hrec := recorded_of_applyAll h
  have hproper := hrec.proper
  refine ⟨fun q c hq => ?_, fun w => ?_⟩
  · refine ⟨_, hproper.partition.symbolOf_eq c, ?_⟩
    rw [targetOn?_spec hq, hrec.move]
  · rw [accepts?, run_spec (q := start) hproper.toValid hproper.size_pos, Logged.ok_bind,
      hrec.walk_eq_follow]
    cases hw : follow cs start w with
    | none => rfl
    | some q =>
      have hq : q < d.chart.size :=
        hproper.closed.walk_lt hproper.size_pos ((hrec.walk_eq_follow start w).trans hw)
      obtain ⟨b, hb, hiff⟩ := isAccept_spec hq
      rw [hrec.accept, Bool.coe_iff_coe] at hiff
      show d.isAccept q = .ok (accepting cs q)
      rw [hb, hiff]

/-- Edges on classes that overlap, a completion between them that adds the state 2, a state that
comes after it, and a completion for that state that adds the state 4. -/
def overwritten : List Change :=
  [.addState, .add 0 1 (.ofRanges [⟨'a', 'm'⟩] false), .add 0 0 (.ofRanges [⟨'g', 'z'⟩] false),
    .setAccept 1 true, .complete, .addState, .add 0 3 (.single 'j'), .add 3 1 (.single 'x'),
    .complete, .setAccept 3 true, .complete]

theorem exists_overwritten : ∃ d, (initial.applyAll overwritten).outcome = .ok d :=
  Outcome.exists_ok_of_isOk (by decide +kernel)

theorem exists_lastWriter_overwritten : ∃ d, (initial.applyAll overwritten).outcome = .ok d ∧
    (∀ q c, q < d.size →
      ∃ x, d.alphabet.symbolOf c = .ok x ∧ d.targetOn? q x = .ok (target? overwritten q c)) ∧
    ∀ w, d.accepts? w = .ok ((follow overwritten start w).elim false (accepting overwritten)) := by
  obtain ⟨d, hd⟩ := exists_overwritten
  exact ⟨d, hd, applyAll_lastWriter hd⟩

end RegularLanguages.Dfa
