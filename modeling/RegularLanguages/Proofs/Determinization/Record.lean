import RegularLanguages.Proofs.Alphabet.Origins
import RegularLanguages.Proofs.Dfa.Thrift

/-!
# What the log of a determinisation says

The loop logs each visit, and each refinement of the alphabet that an edge calls for. `Exhausts` is
the loop with its log, from one determinisation under way to another at which nothing is pending;
`Tells` is what the log says of that way. A state is pending from the moment it is numbered until
its visit, so it is visited once; the set in the record is the one that it stands for.
-/

namespace RegularLanguages

/-- A computation in two parts logs the events of the one and then those of the other. -/
theorem Logged.bind_eq_mk_iff {α β : Type} {x : Logged α} {f : α → Logged β} {es : List Event}
    {b : β} : x >>= f = ⟨es, .ok b⟩ ↔
      ∃ es₁ a es₂, x = ⟨es₁, .ok a⟩ ∧ f a = ⟨es₂, .ok b⟩ ∧ es = es₁ ++ es₂ := by
  obtain ⟨es₁, o⟩ := x
  cases o with
  | error fault =>
    refine iff_of_false (fun h => ?_) fun ⟨_, _, _, h, _⟩ => ?_
    · cases congrArg Logged.outcome h
    · cases congrArg Logged.outcome h
  | ok a =>
    show Logged.mk (es₁ ++ (f a).events) (f a).outcome = ⟨es, .ok b⟩ ↔ _
    constructor
    · intro h
      obtain ⟨rfl, hb⟩ := Logged.mk.inj h
      exact ⟨es₁, a, (f a).events, rfl, by rw [← hb], rfl⟩
    · rintro ⟨es₁, a, es₂, h, hf, rfl⟩
      cases h
      rw [hf]

/-- The state and the set in the record of a visit. -/
def Event.visited? : Event → Option (Nat × List Nat)
  | .visiting subset state => some (state, subset)
  | _ => none

/-- The counts in the record of a refinement. -/
def Event.counts? : Event → Option (Nat × Nat)
  | .refined _ before after => some (before, after)
  | _ => none

/-- The visits on record. -/
def visits (es : List Event) : List (Nat × List Nat) := es.filterMap Event.visited?

/-- The refinements on record. -/
def refinements (es : List Event) : List (Nat × Nat) := es.filterMap Event.counts?

/-- Counts that go up from one number to another, each from where the one before ended. -/
inductive Climbs : Nat → List (Nat × Nat) → Nat → Prop where
  | nil (n : Nat) : Climbs n [] n
  | cons {a b n : Nat} {rest : List (Nat × Nat)} : a < b → Climbs b rest n →
      Climbs a ((a, b) :: rest) n

theorem Climbs.append {a b n : Nat} {l l' : List (Nat × Nat)} (h : Climbs a l b)
    (h' : Climbs b l' n) : Climbs a (l ++ l') n := by
  induction h with
  | nil => exact h'
  | cons hlt _ ih => exact .cons hlt (ih h')

namespace Dfa

/-- The events on the way from one machine to another are refinements of its alphabet. -/
structure Refines (d : Dfa) (es : List Event) (d' : Dfa) : Prop where
  visits : visits es = []
  climbs : Climbs d.alphabet.size (refinements es) d'.alphabet.size
  level : ∀ e ∈ es, e.level = .trace

variable {d d' d'' : Dfa} {es es' : List Event}

theorem Refines.silent (halphabet : d'.alphabet = d.alphabet) : d.Refines [] d' where
  visits := rfl
  climbs := by
    rw [halphabet]
    exact .nil _
  level _ he := absurd he List.not_mem_nil

theorem Refines.trans (h : d.Refines es d') (h' : d'.Refines es' d'') :
    d.Refines (es ++ es') d'' where
  visits := by rw [RegularLanguages.visits, List.filterMap_append, ← RegularLanguages.visits,
    ← RegularLanguages.visits, h.visits, h'.visits, List.append_nil]
  climbs := by
    rw [refinements, List.filterMap_append]
    exact h.climbs.append h'.climbs
  level e he := (List.mem_append.1 he).elim (h.level e) (h'.level e)

/-- The alphabet is refined only if it grows. -/
theorem refines_express (hd : d.Valid) {k : CharClass} (h : d.express k = ⟨es, .ok d'⟩) :
    d.Refines es d' := by
  unfold express at h
  by_cases hk : d.alphabet.expresses k = true
  · rw [if_pos hk] at h
    cases h
    exact .silent rfl
  · rw [if_neg hk] at h
    cases h
    have hlt := Alphabet.size_lt_size_refine_iff.2 (mt hd.partition.expresses_iff.2 hk)
    refine ⟨rfl, .cons hlt (.nil _), fun e he => ?_⟩
    cases List.mem_singleton.1 he
    rfl

theorem refines_add (hd : d.Valid) {source target : Nat} {k : CharClass}
    (h : d.add source target k = ⟨es, .ok d'⟩) : d.Refines es d' := by
  by_cases hsize : d.size ≤ target
  · simp only [add, hsize, if_true] at h
    cases congrArg Logged.outcome h
  · by_cases hk : k.isEmpty = true
    · simp only [add, hsize, hk, if_true, if_false] at h
      cases h
      exact .silent rfl
    · simp only [add, hsize, hk, if_false, Bool.false_eq_true] at h
      obtain ⟨es₁, d₁, _, hd₁, hadd, rfl⟩ := Logged.bind_eq_mk_iff.1 h
      obtain ⟨_, s, _, hs, hmodify, rfl⟩ := Logged.bind_eq_mk_iff.1 hadd
      cases congrArg Logged.events hs
      cases hmodify
      exact (refines_express hd hd₁).trans (.silent rfl)

end Dfa

namespace Determinization

variable {m : Nfa} {D D' : Determinization} {id : Nat} {ids : List Nat} {es es' : List Event}

theorem refines_stateFor (D : Determinization) (ids : List Nat) :
    D.dfa.Refines [] (D.stateFor ids).2.dfa := by
  unfold stateFor
  split
  · exact .silent rfl
  · exact .silent rfl

theorem refines_follow (hD : D.dfa.Valid) {e : CharClass × Nat}
    (h : follow m id ids D e = ⟨es, .ok D'⟩) : D.dfa.Refines es D'.dfa := by
  obtain ⟨k, symbol⟩ := e
  obtain ⟨_, next, es₁, hnext, hgo, rfl⟩ := Logged.bind_eq_mk_iff.1 h
  cases congrArg Logged.events hnext
  split at hgo
  · cases hgo
    exact .silent rfl
  · obtain ⟨es₂, dfa, _, hdfa, hset, rfl⟩ := Logged.bind_eq_mk_iff.1 hgo
    cases hset
    have hvalid : (D.stateFor next).2.dfa.Valid :=
      keeps_stateFor (fun _ _ _ hd hc => (Dfa.apply_spec hd hc).1) hD next
    rw [List.append_nil]
    exact (refines_stateFor D next).trans (Dfa.refines_add hvalid hdfa)

theorem refines_followAll (hD : D.dfa.Valid) {l : List (CharClass × Nat)}
    (h : l.foldlM (follow m id ids) D = ⟨es, .ok D'⟩) : D.dfa.Refines es D'.dfa := by
  induction l generalizing D es with
  | nil =>
    cases h
    exact .silent rfl
  | cons e rest ih =>
    rw [List.foldlM_cons] at h
    obtain ⟨es₁, D₁, es₂, hD₁, hrest, rfl⟩ := Logged.bind_eq_mk_iff.1 h
    have hvalid : D₁.dfa.Valid :=
      keeps_follow (fun _ _ _ hd hc => (Dfa.apply_spec hd hc).1) hD (congrArg Logged.outcome hD₁)
    exact (refines_follow hD hD₁).trans (ih hvalid hrest)

/-- A visit logs itself and then the refinements on the way. -/
theorem exists_events_visit (hD : D.dfa.Valid) (h : visit m id ids D = ⟨es, .ok D'⟩) :
    ∃ es', es = .visiting ids id :: es' ∧ D.dfa.Refines es' D'.dfa := by
  obtain ⟨_, _, es₁, hlog, hvisit, rfl⟩ := Logged.bind_eq_mk_iff.1 h
  cases congrArg Logged.events hlog
  refine ⟨es₁, rfl, ?_⟩
  obtain ⟨_, b, _, hb, hjudge, rfl⟩ := Logged.bind_eq_mk_iff.1 hvisit
  cases congrArg Logged.events hb
  obtain ⟨_, dfa, es₂, hdfa, hall, rfl⟩ := Logged.bind_eq_mk_iff.1 hjudge
  cases congrArg Logged.events hdfa
  have hset : D.dfa.setAccept id b = .ok dfa := congrArg Logged.outcome hdfa
  have hvalid : dfa.Valid := (Dfa.apply_spec (c := .setAccept id b) hD hset).1
  have halphabet : dfa.alphabet = D.dfa.alphabet := by
    obtain ⟨s, -, heq⟩ := Logged.bind_eq_ok_iff.1 hset
    cases heq
    rfl
  have hfollowed : dfa.Refines es₂ D'.dfa :=
    refines_followAll (D := { D with dfa := dfa }) hvalid hall
  exact (Dfa.Refines.silent halphabet).trans hfollowed

/-! ## The loop -/

/-- Visits until nothing is pending, with the events that they log. -/
inductive Exhausts (m : Nfa) : Determinization → List Event → Determinization → Prop where
  | done {D : Determinization} : D.pending = [] → Exhausts m D [] D
  | visit {D D₁ D' : Determinization} {id : Nat} {ids : List Nat} {rest : List (Nat × List Nat)}
      {es es' : List Event} : D.pending = (id, ids) :: rest →
      visit m id ids { D with pending := rest } = ⟨es, .ok D₁⟩ → Exhausts m D₁ es' D' →
      Exhausts m D (es ++ es') D'

/-- Fuel that lasts until nothing is pending is not noticed. -/
theorem exhausts_of_visitAll {fuel : Nat} (h : visitAll m fuel D = ⟨es, .ok D'⟩)
    (hpending : D'.pending = []) : Exhausts m D es D' := by
  induction fuel generalizing D es with
  | zero =>
    cases h
    exact .done hpending
  | succ fuel ih =>
    unfold visitAll at h
    split at h
    · cases h
      exact .done hpending
    · rename_i id ids rest hp
      obtain ⟨es₁, D₁, es₂, hvisit, hrest, rfl⟩ := Logged.bind_eq_mk_iff.1 h
      exact .visit hp hvisit (ih hrest)

/-- What the events on the way from `D` to `D'` say. -/
structure Tells (D : Determinization) (es : List Event) (D' : Determinization) : Prop where
  /-- The set in a record is the one that the state stands for. -/
  subset : ∀ v ∈ visits es, D'.subsets[v.1]? = some v.2
  nodup : ((visits es).map Prod.fst).Nodup
  visited_iff : ∀ q, q ∈ (visits es).map Prod.fst ↔ q < D'.subsets.size ∧ ¬D.Judged q
  first : (visits es).head? = D.pending.head?
  climbs : Climbs D.dfa.alphabet.size (refinements es) D'.dfa.alphabet.size
  level : ∀ e ∈ es, e.level = .trace

theorem tells_nil (hpending : D.pending = []) : Tells D [] D where
  subset _ hv := absurd hv List.not_mem_nil
  nodup := .nil
  visited_iff q := by
    refine iff_of_false List.not_mem_nil fun ⟨hlt, hjudged⟩ => hjudged ⟨hlt, ?_⟩
    rw [hpending]
    exact List.not_mem_nil
  first := by
    rw [hpending]
    rfl
  climbs := .nil _
  level _ he := absurd he List.not_mem_nil

theorem visits_cons_append {id : Nat} {ids : List Nat} {d d' : Dfa} (h : d.Refines es d') :
    visits (.visiting ids id :: es ++ es') = (id, ids) :: visits es' := by
  have hnone : es.filterMap Event.visited? = [] := h.visits
  rw [visits, List.filterMap_append, List.filterMap_cons, hnone]
  rfl

/-- One more visit in front. -/
theorem Tells.visit {D₁ : Determinization} {rest : List (Nat × List Nat)} (h : Tells D₁ es' D')
    (hp : D.pending = (id, ids) :: rest) (hid : D'.subsets[id]? = some ids)
    (hvisited : Visited D id D₁) (hrefines : D.dfa.Refines es D₁.dfa) :
    Tells D (.visiting ids id :: es ++ es') D' := by
  have hvisits : visits (.visiting ids id :: es ++ es') = (id, ids) :: visits es' :=
    visits_cons_append hrefines
  have hopen : ¬D.Judged id := fun hjudged => hjudged.2 (by simp [hp])
  refine ⟨fun v hv => ?_, ?_, fun q => ?_, ?_, ?_, fun e he => ?_⟩
  · rw [hvisits] at hv
    rcases List.mem_cons.1 hv with rfl | hv
    · exact hid
    · exact h.subset v hv
  · rw [hvisits, List.map_cons, List.nodup_cons, h.visited_iff]
    exact ⟨fun hagain => hagain.2 ((hvisited.judged id).2 (.inr rfl)), h.nodup⟩
  · rw [hvisits, List.map_cons, List.mem_cons, h.visited_iff, hvisited.judged]
    constructor
    · rintro (rfl | ⟨hlt, hnot⟩)
      · exact ⟨lt_size hid, hopen⟩
      · exact ⟨hlt, fun hjudged => hnot (.inl hjudged)⟩
    · rintro ⟨hlt, hnot⟩
      by_cases hq : q = id
      · exact .inl hq
      · exact .inr ⟨hlt, fun hjudged => hjudged.elim hnot hq⟩
  · rw [hvisits, hp]
    rfl
  · have hclimbs := hrefines.climbs.append h.climbs
    rw [refinements, refinements, ← List.filterMap_append] at hclimbs
    exact hclimbs
  · rw [List.cons_append, List.mem_cons, List.mem_append] at he
    rcases he with rfl | he | he
    · rfl
    · exact hrefines.level e he
    · exact h.level e he

theorem Exhausts.tells (hm : m.Valid) (h : Exhausts m D es D') (hindexed : Indexed m D)
    (hsettled : Settled m D) : Finished m D' ∧
      (∀ q, q < D.subsets.size → D'.subsets[q]? = D.subsets[q]?) ∧ Tells D es D' := by
  induction h with
  | done hpending => exact ⟨⟨hindexed, hsettled, hpending⟩, fun _ _ => rfl, tells_nil hpending⟩
  | @visit D D₁ D' id ids rest es es' hp hvisit _ ih =>
    obtain ⟨hindexed₁, hsettled₁, hvisited⟩ :=
      Outcome.of_exists_ok (visit_spec hm hindexed hsettled hp) (congrArg Logged.outcome hvisit)
    obtain ⟨hfinished, hold, htells⟩ := ih hindexed₁ hsettled₁
    have hkept : ∀ q, q < D.subsets.size → D'.subsets[q]? = D.subsets[q]? := fun q hq => by
      have hq₁ := (hvisited.old q hq).trans (Array.getElem?_eq_getElem hq)
      rw [hold q (lt_size hq₁), hvisited.old q hq]
    have hid : D.subsets[id]? = some ids := hindexed.waiting id ids (by simp [hp])
    obtain ⟨es₁, rfl, hrefines⟩ :=
      exists_events_visit (D := { D with pending := rest }) hindexed.proper.toValid hvisit
    exact ⟨hfinished, hkept, htells.visit hp ((hkept id (lt_size hid)).trans hid) hvisited hrefines⟩

end Determinization

/-! ## The whole log -/

open Determinization

/-- The log `es` of the determinisation of `m` is true of the machine `d` that it gives. -/
structure Nfa.Chronicles (m : Nfa) (d : Dfa) (es : List Event) : Prop where
  /-- Each state is visited once. -/
  states : ((visits es).map Prod.fst).Perm (List.range d.size)
  /-- The first visit is to the start, and only its set can be empty. -/
  first : ∃ ids rest, m.startSet = .ok ids ∧ visits es = (0, ids) :: rest ∧ ∀ v ∈ rest, v.2 ≠ []
  distinct : ((visits es).map Prod.snd).Nodup
  closed : ∀ v ∈ visits es, m.closure v.2 = .ok v.2
  /-- The set of a visit is the one that the state stands for. -/
  stands : ∀ v ∈ visits es, ∀ w, d.run Dfa.start w = .ok (some v.1) → m.statesAfter w = .ok v.2
  climbs : Climbs 1 (refinements es) d.alphabet.size
  level : ∀ e ∈ es, e.level = .trace

variable {m : Nfa} {D : Determinization} {es : List Event} {ids : List Nat}

/-- Each visit on record is to a state that some text leads to, under the set of this text. -/
theorem Determinization.Tells.reached {D₀ : Determinization} (h : Tells D₀ es D)
    (hfinished : Finished m D) {v : Nat × List Nat} (hv : v ∈ visits es) :
    ∃ w, m.statesAfter w = .ok v.2 ∧ D.dfa.run Dfa.start w = .ok (some v.1) := by
  obtain ⟨w, hw, hwalk⟩ := hfinished.settled.reached v.1 v.2 (h.subset v hv)
  exact ⟨w, hw, by rw [hfinished.run_eq, hwalk]⟩

/-- The run falls off where the set is empty, so only the start can stand for the empty set. -/
theorem Determinization.Tells.subset_ne_nil (hm : m.Valid) {D₀ : Determinization}
    (h : Tells D₀ es D) (hfinished : Finished m D) {v : Nat × List Nat} (hv : v ∈ visits es)
    (hstart : v.1 ≠ 0) : v.2 ≠ [] := by
  intro hempty
  obtain ⟨w, hw, hrun⟩ := h.reached hfinished hv
  have hne : w ≠ [] := by
    rintro rfl
    have hzero : 0 = v.1 := Option.some.inj (Except.ok.inj hrun)
    exact hstart hzero.symm
  have hnone := ((hfinished.run_spec hm hw).2 hne).2 hempty
  cases hrun.symm.trans hnone

theorem Nfa.chronicles_of_tells (hm : m.Valid) (hids : m.startSet = .ok ids)
    (hfinished : Finished m D) (h : Tells (.start ids) es D) : m.Chronicles D.dfa es := by
  have hsame : ∀ v ∈ visits es, ∀ v' ∈ visits es, v.2 = v'.2 → v = v' := fun v hv v' hv' heq =>
    Prod.ext (hfinished.indexed.distinct v.1 v'.1 v.2 (h.subset v hv) (heq ▸ h.subset v' hv')) heq
  refine ⟨?_, ?_, h.nodup.of_map.map_on hsame, fun v hv => ?_, fun v hv w hw => ?_, h.climbs,
    h.level⟩
  · refine (List.perm_ext_iff_of_nodup h.nodup List.nodup_range).2 fun q => ?_
    have hjudged : ¬(Determinization.start ids).Judged q := fun ⟨hlt, hq⟩ =>
      hq (List.mem_singleton.2 (Nat.lt_one_iff.1 hlt))
    have hsize : D.dfa.size = D.subsets.size := hfinished.indexed.size
    rw [h.visited_iff, List.mem_range, hsize]
    exact and_iff_left hjudged
  · obtain ⟨rest, hrest⟩ := List.head?_eq_some_iff.1 h.first
    refine ⟨ids, rest, hids, hrest, fun v hv => ?_⟩
    have hnodup := h.nodup
    rw [hrest, List.map_cons, List.nodup_cons] at hnodup
    refine h.subset_ne_nil hm hfinished (hrest ▸ List.mem_cons_of_mem _ hv) fun hzero => ?_
    exact hnodup.1 (List.mem_map.2 ⟨v, hv, hzero⟩)
  · obtain ⟨w, hw, -⟩ := h.reached hfinished hv
    obtain ⟨r, hr, henum⟩ := Nfa.statesAfter_spec hm w
    cases hw.symm.trans hr
    exact closure_statesAfter hm henum
  · obtain ⟨r, hr, -⟩ := Nfa.statesAfter_spec hm w
    have hstate := (hfinished.run_spec hm hr).1 v.1 hw
    rw [h.subset v hv, Option.some.injEq] at hstate
    rw [hstate, hr]

/-- The loop ends with nothing pending, and its log is true; one more event sums up the result. -/
theorem Automaton.Built.toDfa_chronicled (h : Automaton.Built (.nfa m)) :
    ∃ ids D es, m.startSet = .ok ids ∧ Exhausts m (.start ids) es D ∧ D.pending = [] ∧
      m.toDfa = ⟨es ++ [.determinized m.size D.dfa.size D.dfa.alphabet.size], .ok D.dfa⟩ ∧
      m.Chronicles D.dfa es := by
  have hm : m.Valid := h.sound
  obtain ⟨ids, hids, henum⟩ := Nfa.startSet_spec hm
  have hvertex := Nfa.vertex_of_mem_closure hm (fun _ => Nfa.vertex_of_start) henum
  have hindexed := indexed_start hids henum.ordered hvertex
  have hsettled := settled_start hids
  obtain ⟨D, hD, -, -, hpending⟩ := visitAll_spec hm (2 ^ m.slots.size) hindexed hsettled
    (Nat.le_of_eq (Nat.add_comm ..))
  obtain ⟨es, hes⟩ : ∃ es, visitAll m (2 ^ m.slots.size) (.start ids) = ⟨es, .ok D⟩ :=
    ⟨_, congrArg (Logged.mk _) hD⟩
  have hexhausts := exhausts_of_visitAll hes hpending
  obtain ⟨hfinished, -, htells⟩ := hexhausts.tells hm hindexed hsettled
  refine ⟨ids, D, es, hids, hexhausts, hpending, ?_, Nfa.chronicles_of_tells hm hids hfinished htells⟩
  refine Logged.bind_eq_mk_iff.2 ⟨[], ids, _, congrArg (Logged.mk _) hids, ?_, rfl⟩
  exact Logged.bind_eq_mk_iff.2 ⟨es, D, _, hes, rfl, rfl⟩

theorem Nfa.exists_chronicles_tangled : ∃ m, (empty.applyAll tangled).outcome = .ok m ∧
    Automaton.Built (.nfa m) ∧ ∃ ids D es, m.startSet = .ok ids ∧
      Exhausts m (.start ids) es D ∧ D.pending = [] ∧
      m.toDfa = ⟨es ++ [.determinized m.size D.dfa.size D.dfa.alphabet.size], .ok D.dfa⟩ ∧
      m.Chronicles D.dfa es := by
  obtain ⟨m, hm⟩ := exists_tangled
  have hbuilt : Automaton.Built (.nfa m) := built_of_applyAll .empty hm
  exact ⟨m, hm, hbuilt, hbuilt.toDfa_chronicled⟩

end RegularLanguages
