import RegularLanguages.Proofs.CharClass.StoredForm
import RegularLanguages.Proofs.Pattern.NormalForm
import RegularLanguages.Proofs.Pattern.Reparse

/-!
# Written patterns come to rest

A parsed pattern is not always read back as the same tree from its text: the parts of a nested
concatenation join those around it, alternations lean to the left, and `|a` is written as `a?`. But
the tree that is read back is known, it is the `reassociated` one, and it has the same text. So what
is written for a parsed pattern does not change when it is read and written again.
-/

namespace RegularLanguages

open Progress (Takes)

namespace Pattern

/-! ## The tree that is read back -/

/-- The alternation of the sides, leaning to the left. -/
def ofBranches : List Pattern → Pattern
  | [] => empty
  | p :: rest => rest.foldl alternation p

/-- What a pattern adds to a concatenation around it. -/
def factors : Pattern → List Pattern
  | concat parts => parts
  | p => [p]

mutual

/-- What is read back between the outermost bars of the text of a parsed pattern. -/
def branches : Pattern → List Pattern
  | literal k => [literal k]
  | concat parts => [ofParts (factorsAll parts)]
  | alternation p empty => [alternation (ofBranches p.branches) empty]
  | alternation empty q => [alternation (ofBranches q.branches) empty]
  | alternation p q => p.branches ++ q.branches
  | star p => [star (ofBranches p.branches)]
  | empty => [empty]
  | null => [literal .empty]

def factorsAll : List Pattern → List Pattern
  | [] => []
  | p :: rest => (ofBranches p.branches).factors ++ factorsAll rest

end

/-- The tree that is read back from the text of a parsed pattern. -/
def reassociated (p : Pattern) : Pattern := ofBranches p.branches

variable {b p q : Pattern} {bs cs ps : List Pattern}

/-! ## Branches -/

theorem ofBranches_append (hbs : bs ≠ []) (cs : List Pattern) :
    ofBranches (bs ++ cs) = cs.foldl alternation (ofBranches bs) := by
  cases bs with
  | nil => exact absurd rfl hbs
  | cons b bs => exact List.foldl_append

theorem foldl_ne_empty (hb : b ≠ empty) (bs : List Pattern) : bs.foldl alternation b ≠ empty := by
  induction bs generalizing b with
  | nil => exact hb
  | cons c bs ih => exact ih nofun

theorem exists_foldl_eq (hb : b ≠ empty) (hbs : bs ≠ []) (hempty : empty ∉ bs) :
    ∃ p q, p ≠ empty ∧ q ≠ empty ∧ bs.foldl alternation b = alternation p q := by
  obtain ⟨init, last, rfl⟩ := (List.eq_nil_or_concat' bs).resolve_left hbs
  have hlast : last ≠ empty := fun h => hempty (by simp [h])
  exact ⟨init.foldl alternation b, last, foldl_ne_empty hb init, hlast, List.foldl_concat ..⟩

theorem branches_alternation_empty (p : Pattern) :
    (alternation p empty).branches = [alternation p.reassociated empty] := by
  rw [branches, reassociated]

theorem branches_empty_alternation (hq : q ≠ empty) :
    (alternation empty q).branches = [alternation q.reassociated empty] := by
  rw [branches, reassociated]
  exact hq

theorem branches_alternation (hp : p ≠ empty) (hq : q ≠ empty) :
    (alternation p q).branches = p.branches ++ q.branches := by
  rw [branches]
  · exact hq
  · exact hp

theorem factorsAll_cons (p : Pattern) (ps : List Pattern) :
    factorsAll (p :: ps) = p.reassociated.factors ++ factorsAll ps := by
  rw [factorsAll, reassociated]

/-! ## Parsed patterns stay parsed -/

theorem Parsed.factors_ne_nil (h : p.Parsed) : p.factors ≠ [] := by
  cases h with
  | concat hlength _ => exact List.ne_nil_of_length_pos (Nat.lt_of_lt_of_le Nat.two_pos hlength)
  | literal _ | alternation _ _ | star _ | empty => exact List.cons_ne_nil _ _

theorem Parsed.of_mem_factors (h : p.Parsed) (hq : q ∈ p.factors) : q.Parsed := by
  cases h with
  | concat _ hparts => exact hparts q hq
  | literal hk => exact List.mem_singleton.1 hq ▸ .literal hk
  | alternation hp hq' => exact List.mem_singleton.1 hq ▸ .alternation hp hq'
  | star hp => exact List.mem_singleton.1 hq ▸ .star hp
  | empty => exact List.mem_singleton.1 hq ▸ .empty

theorem parsed_foldl (hb : b.Parsed) (hbs : ∀ c ∈ bs, c.Parsed) :
    (bs.foldl alternation b).Parsed := by
  induction bs generalizing b with
  | nil => exact hb
  | cons c bs ih =>
    obtain ⟨hc, hbs⟩ := List.forall_mem_cons.1 hbs
    exact ih (.alternation hb hc) hbs

theorem parsed_ofBranches (hbs : ∀ b ∈ bs, b.Parsed) : (ofBranches bs).Parsed := by
  cases bs with
  | nil => exact .empty
  | cons b bs =>
    obtain ⟨hb, hbs⟩ := List.forall_mem_cons.1 hbs
    exact parsed_foldl hb hbs

/-- No part is lost. -/
theorem length_le_factorsAll (h : ∀ p ∈ ps, p.reassociated.Parsed) :
    ps.length ≤ (factorsAll ps).length := by
  induction ps with
  | nil => exact Nat.le_refl 0
  | cons p ps ih =>
    obtain ⟨hp, hps⟩ := List.forall_mem_cons.1 h
    have hfactors := List.length_pos_iff.2 hp.factors_ne_nil
    have hrest := ih hps
    rw [factorsAll_cons, List.length_append, List.length_cons]
    omega

theorem two_le_length_factorsAll (hlength : 2 ≤ ps.length)
    (h : ∀ p ∈ ps, p.reassociated.Parsed) : 2 ≤ (factorsAll ps).length :=
  Nat.le_trans hlength (length_le_factorsAll h)

theorem parsed_of_mem_factorsAll (h : ∀ p ∈ ps, p.reassociated.Parsed) :
    ∀ q ∈ factorsAll ps, q.Parsed := by
  induction ps with
  | nil => exact nofun
  | cons p ps ih =>
    obtain ⟨hp, hps⟩ := List.forall_mem_cons.1 h
    rw [factorsAll_cons]
    exact List.forall_mem_append.2 ⟨fun q => hp.of_mem_factors, ih hps⟩

theorem branches_concat (hlength : 2 ≤ ps.length) (h : ∀ p ∈ ps, p.reassociated.Parsed) :
    (concat ps).branches = [concat (factorsAll ps)] := by
  rw [branches, ofParts_eq_concat (two_le_length_factorsAll hlength h)]

theorem Parsed.of_mem_branches (h : p.Parsed) : ∀ b ∈ p.branches, b.Parsed := by
  induction h with
  | literal hk => exact List.forall_mem_singleton.2 (.literal hk)
  | concat hlength _ ih =>
    have hparts := fun p hp => parsed_ofBranches (ih p hp)
    rw [branches_concat hlength hparts]
    exact List.forall_mem_singleton.2
      (.concat (two_le_length_factorsAll hlength hparts) (parsed_of_mem_factorsAll hparts))
  | @alternation p q _ _ ihp ihq =>
    rcases sides_cases p q with rfl | ⟨rfl, hq⟩ | ⟨hp, hq⟩
    · rw [branches_alternation_empty]
      exact List.forall_mem_singleton.2 (.alternation (parsed_ofBranches ihp) .empty)
    · rw [branches_empty_alternation hq]
      exact List.forall_mem_singleton.2 (.alternation (parsed_ofBranches ihq) .empty)
    · rw [branches_alternation hp hq]
      exact List.forall_mem_append.2 ⟨ihp, ihq⟩
  | star _ ih => exact List.forall_mem_singleton.2 (.star (parsed_ofBranches ih))
  | empty => exact List.forall_mem_singleton.2 .empty

theorem Parsed.reassociated (h : p.Parsed) : p.reassociated.Parsed :=
  parsed_ofBranches h.of_mem_branches

theorem Parsed.branches_ne_nil (h : p.Parsed) : p.branches ≠ [] := by
  induction h with
  | @alternation p q _ _ ihp _ =>
    rcases sides_cases p q with rfl | ⟨rfl, hq⟩ | ⟨hp, hq⟩
    · rw [branches_alternation_empty]
      exact List.cons_ne_nil _ _
    · rw [branches_empty_alternation hq]
      exact List.cons_ne_nil _ _
    · rw [branches_alternation hp hq]
      exact List.append_ne_nil_of_left_ne_nil ihp _
  | literal _ | concat _ _ | star _ | empty => exact List.cons_ne_nil _ _

/-- Only the empty text itself has a side that is empty. -/
theorem empty_notMem_branches (h : p.Parsed) (hp : p ≠ empty) : empty ∉ p.branches := by
  induction h with
  | literal _ | star _ => simp [branches]
  | concat hlength hparts _ =>
    simp [branches_concat hlength fun p hp => (hparts p hp).reassociated]
  | @alternation p q _ _ ihp ihq =>
    rcases sides_cases p q with rfl | ⟨rfl, hq⟩ | ⟨hp, hq⟩
    · simp [branches_alternation_empty]
    · simp [branches_empty_alternation hq]
    · rw [branches_alternation hp hq]
      exact List.not_mem_append (ihp hp) (ihq hq)
  | empty => exact absurd rfl hp

theorem exists_branches_eq (h : p.Parsed) (hp : p ≠ empty) :
    ∃ b bs, p.branches = b :: bs ∧ b ≠ empty ∧ empty ∉ bs := by
  obtain ⟨b, bs, hbranches⟩ := List.exists_cons_of_ne_nil h.branches_ne_nil
  have hempty := empty_notMem_branches h hp
  rw [hbranches] at hempty
  obtain ⟨hb, hbs⟩ := List.ne_and_not_mem_of_not_mem_cons hempty
  exact ⟨b, bs, hbranches, hb.symm, hbs⟩

/-! ## The constructors read back -/

theorem reassociated_concat (hlength : 2 ≤ ps.length) (h : ∀ p ∈ ps, p.Parsed) :
    (concat ps).reassociated = concat (factorsAll ps) := by
  rw [reassociated, branches_concat hlength fun p hp => (h p hp).reassociated]
  rfl

theorem reassociated_alternation_empty (p : Pattern) :
    (alternation p empty).reassociated = alternation p.reassociated empty := by
  rw [reassociated, branches_alternation_empty]
  rfl

theorem reassociated_empty_alternation (hq : q ≠ empty) :
    (alternation empty q).reassociated = alternation q.reassociated empty := by
  rw [reassociated, branches_empty_alternation hq]
  rfl

theorem reassociated_alternation (h : p.Parsed) (hp : p ≠ empty) (hq : q ≠ empty) :
    (alternation p q).reassociated = q.branches.foldl alternation p.reassociated := by
  rw [reassociated, branches_alternation hp hq, ofBranches_append h.branches_ne_nil, reassociated]

theorem reassociated_star (p : Pattern) : (star p).reassociated = star p.reassociated := rfl

theorem reassociated_ne_empty (h : p.Parsed) (hp : p ≠ empty) : p.reassociated ≠ empty := by
  obtain ⟨b, bs, hbranches, hb, -⟩ := exists_branches_eq h hp
  rw [reassociated, hbranches]
  exact foldl_ne_empty hb bs

/-- An alternation is no concatenation. -/
theorem factors_append_branches (h : p.Parsed) (h' : q.Parsed) (hp : p ≠ empty) (hq : q ≠ empty) :
    (ofBranches (p.branches ++ q.branches)).factors = [ofBranches (p.branches ++ q.branches)] := by
  obtain ⟨left, right, -, -, heq⟩ := exists_foldl_eq (reassociated_ne_empty h hp)
    h'.branches_ne_nil (empty_notMem_branches h' hq)
  rw [ofBranches_append h.branches_ne_nil, ← reassociated, heq]
  rfl

/-! ## The text stays the same -/

/-- The text of further branches, each with its bar. -/
def barsText (bs : List Pattern) : List Char := bs.flatMap fun b => '|' :: b.textIn .branch

theorem textIn_branch_foldl (hb : b ≠ empty) (hempty : empty ∉ bs) :
    (bs.foldl alternation b).textIn .branch = b.textIn .branch ++ barsText bs := by
  induction bs generalizing b with
  | nil => exact (List.append_nil _).symm
  | cons c bs ih =>
    obtain ⟨hc, hempty⟩ := List.ne_and_not_mem_of_not_mem_cons hempty
    have hrest := ih (b := alternation b c) nofun hempty
    rw [List.foldl_cons, hrest, textIn_alternation hb hc.symm, barsText, barsText,
      List.flatMap_cons, ← List.append_assoc]
    rfl

theorem textIn_foldl (hb : b ≠ empty) (hbs : bs ≠ []) (hempty : empty ∉ bs) (context : Context) :
    (bs.foldl alternation b).textIn context =
      context.encloseBranches (b.textIn .branch ++ barsText bs) := by
  rw [← textIn_branch_foldl hb hempty]
  obtain ⟨p, q, hp, hq, heq⟩ := exists_foldl_eq hb hbs hempty
  rw [heq, textIn_alternation hp hq, textIn_alternation hp hq]
  rfl

theorem Parsed.barsText_branches (h : p.Parsed) (hp : p ≠ .empty) :
    barsText p.branches = '|' :: p.reassociated.textIn .branch := by
  obtain ⟨b, bs, hbranches, hb, hempty⟩ := exists_branches_eq h hp
  rw [Pattern.reassociated, hbranches, ofBranches, textIn_branch_foldl hb hempty]
  rfl

theorem partsText_append (ps qs : List Pattern) :
    partsText (ps ++ qs) = partsText ps ++ partsText qs := by
  induction ps with
  | nil => rfl
  | cons p ps ih => rw [List.cons_append, partsText, ih, partsText, List.append_assoc]

theorem Parsed.partsText_factors (h : p.Parsed) : partsText p.factors = p.textIn .part := by
  cases h with
  | concat hlength _ => exact (textIn_concat hlength .part).symm
  | literal _ | alternation _ _ | star _ | empty =>
    exact List.append_nil _

theorem partsText_factorsAll (h : ∀ p ∈ ps, p.reassociated.Parsed)
    (htext : ∀ p ∈ ps, p.reassociated.textIn .part = p.textIn .part) :
    partsText (factorsAll ps) = partsText ps := by
  induction ps with
  | nil => rfl
  | cons p ps ih =>
    obtain ⟨hp, hps⟩ := List.forall_mem_cons.1 h
    obtain ⟨htextp, htextps⟩ := List.forall_mem_cons.1 htext
    rw [factorsAll_cons, partsText_append, hp.partsText_factors, htextp, ih hps htextps, partsText]

/-- The reassociated tree is written in the same way wherever it stands. -/
theorem Parsed.textIn_reassociated (h : p.Parsed) (context : Context) :
    p.reassociated.textIn context = p.textIn context := by
  induction h generalizing context with
  | literal _ => rfl
  | @concat ps hlength hparts ih =>
    have hreassociated := fun p hp => (hparts p hp).reassociated
    rw [reassociated_concat hlength hparts, textIn_concat hlength,
      textIn_concat (two_le_length_factorsAll hlength hreassociated),
      partsText_factorsAll hreassociated fun p hp => ih p hp .part]
  | @alternation p q hp hq ihp ihq =>
    rcases sides_cases p q with rfl | ⟨rfl, hqne⟩ | ⟨hpne, hqne⟩
    · rw [reassociated_alternation_empty, textIn_alternation_empty, textIn_alternation_empty, ihp]
    · rw [reassociated_empty_alternation hqne, textIn_alternation_empty,
        textIn_empty_alternation hqne, ihq]
    · -- the branches of the right side follow those of the left, behind bars of their own
      rw [reassociated_alternation hp hpne hqne,
        textIn_foldl (reassociated_ne_empty hp hpne) hq.branches_ne_nil
          (empty_notMem_branches hq hqne),
        hq.barsText_branches hqne, textIn_alternation hpne hqne, ihp, ihq]
  | star _ ih => rw [reassociated_star, textIn, textIn, ih]
  | empty => rfl

/-! ## The text is read back -/

/-- What is written for a canonical class is read as the class itself. -/
theorem takes_text {k : CharClass} (hk : k.Canonical) (f : Frame) (outer : List Frame) :
    Takes k.text ⟨f, outer⟩ ⟨f.push (literal k), outer⟩ := by
  rcases k.text_cases with ⟨rfl, htext⟩ | ⟨c, rfl, htext⟩ | ⟨-, -, htext⟩
  · rw [htext]
    exact Progress.takes_token (Cursor.spells_ofChar (by decide) (by decide)) fun _ => rfl
  · rw [htext]
    exact Progress.takes_token (Cursor.spells_literalText c) fun _ => rfl
  · rw [htext]
    refine Progress.takes_token (Cursor.spells_bracketText hk.ordered) fun _ => ?_
    rw [hk.ofRanges_parts]
    rfl

end Pattern

open Pattern

/-- How a text is read back that is written in a context: the branches are joined to what stands
before them. -/
def Context.ReadsBack : Context → List Char → List Pattern → Prop
  | .operand, text, bs => ∀ f outer, Takes text ⟨f, outer⟩ ⟨f.push (ofBranches bs), outer⟩
  | .part, text, bs =>
    ∀ f outer, Takes text ⟨f, outer⟩ ⟨f.pushAll (ofBranches bs).factors, outer⟩
  | .branch, text, bs => ∀ before : Option Pattern, ∃ f : Frame,
    f.value = ofBranches (before.toList ++ bs) ∧ ∀ outer, Takes text ⟨⟨before, []⟩, outer⟩ ⟨f, outer⟩

section

variable {u v : List Char} {p : Pattern} {bs cs ps : List Pattern}

theorem Frame.value_pushAll (before : Option Pattern) (ps : List Pattern) :
    (pushAll ⟨before, []⟩ ps).value = ofBranches (before.toList ++ [ofParts ps]) := by
  have hbranch : (pushAll ⟨before, []⟩ ps).branch = ofParts ps := by
    rw [branch, pushAll, List.append_nil, List.reverse_reverse]
  cases before with
  | none => exact hbranch
  | some p => exact congrArg (alternation p) hbranch

theorem readsBack_operand (h : ∀ f outer, Takes u ⟨f, outer⟩ ⟨f.push p, outer⟩)
    (hp : p.factors = [p]) (context : Context) : context.ReadsBack u [p] := by
  match context with
  | .operand => exact h
  | .part =>
    intro f outer
    rw [ofBranches, List.foldl_nil, hp]
    exact h f outer
  | .branch => exact fun before => ⟨_, Frame.value_pushAll before [p], h ⟨before, []⟩⟩

theorem readsBack_repeat (h : Context.operand.ReadsBack u bs) (op : Repetition)
    (hop : (op.apply (ofBranches bs)).factors = [op.apply (ofBranches bs)]) (context : Context) :
    context.ReadsBack (u ++ [op.symbol]) [op.apply (ofBranches bs)] :=
  readsBack_operand (fun f outer =>
    (h f outer).append (Progress.takes_repetition op f (ofBranches bs) outer)) hop context

theorem readsBack_enclose (h : Context.branch.ReadsBack u bs) :
    Context.operand.ReadsBack ('(' :: (u ++ [')'])) bs := by
  intro f outer
  obtain ⟨f', hf', htakes⟩ := h none
  have henclose := Progress.takes_enclose (htakes (f :: outer))
  rwa [hf'] at henclose

theorem readsBack_encloseParts (h : ∀ f outer, Takes u ⟨f, outer⟩ ⟨f.pushAll ps, outer⟩)
    (hlength : 2 ≤ ps.length) (context : Context) :
    context.ReadsBack (context.encloseParts u) [concat ps] := by
  have hbranch : Context.branch.ReadsBack u [concat ps] := fun before =>
    ⟨_, ofParts_eq_concat hlength ▸ Frame.value_pushAll before ps, h ⟨before, []⟩⟩
  match context with
  | .operand => exact readsBack_enclose hbranch
  | .part => exact h
  | .branch => exact hbranch

theorem readsBack_encloseBranches (h : Context.branch.ReadsBack u bs)
    (hbs : (ofBranches bs).factors = [ofBranches bs]) (context : Context) :
    context.ReadsBack (context.encloseBranches u) bs := by
  match context with
  | .operand => exact readsBack_enclose h
  | .part =>
    intro f outer
    rw [hbs]
    exact readsBack_enclose h f outer
  | .branch => exact h

theorem readsBack_bar (hu : Context.branch.ReadsBack u bs) (hv : Context.branch.ReadsBack v cs)
    (hbs : bs ≠ []) : Context.branch.ReadsBack (u ++ '|' :: v) (bs ++ cs) := by
  intro before
  obtain ⟨f, hf, htakes⟩ := hu before
  obtain ⟨f', hf', htakes'⟩ := hv (some f.value)
  refine ⟨f', ?_, fun outer =>
    (htakes outer).append ((Progress.takes_bar f outer).append (htakes' outer))⟩
  rw [← List.append_assoc, ofBranches_append (List.append_ne_nil_of_right_ne_nil _ hbs), hf', hf]
  rfl

end

namespace Pattern

variable {p : Pattern} {ps : List Pattern}

theorem takes_partsText (h : ∀ p ∈ ps, Context.part.ReadsBack (p.textIn .part) p.branches)
    (f : Frame) (outer : List Frame) :
    Takes (partsText ps) ⟨f, outer⟩ ⟨f.pushAll (factorsAll ps), outer⟩ := by
  induction ps generalizing f with
  | nil => exact Progress.takes_nil ⟨f, outer⟩
  | cons p ps ih =>
    obtain ⟨hp, hps⟩ := List.forall_mem_cons.1 h
    have hpush : f.pushAll (factorsAll (p :: ps)) =
        (f.pushAll p.reassociated.factors).pushAll (factorsAll ps) := by
      simp only [factorsAll_cons, Frame.pushAll, List.reverse_append, List.append_assoc]
    rw [hpush, partsText]
    exact (hp f outer).append (ih hps _)

/-- The text of a parsed pattern is read back as its branches, in all contexts at once, since a node
writes its parts in other contexts than its own. -/
theorem Parsed.readsBack (h : p.Parsed) (context : Context) :
    context.ReadsBack (p.textIn context) p.branches := by
  induction h generalizing context with
  | literal hk => exact readsBack_operand (takes_text hk) rfl context
  | @concat ps hlength hparts ih =>
    have hreassociated := fun p hp => (hparts p hp).reassociated
    rw [textIn_concat hlength, branches_concat hlength hreassociated]
    exact readsBack_encloseParts (takes_partsText fun p hp => ih p hp .part)
      (two_le_length_factorsAll hlength hreassociated) context
  | @alternation p q hp hq ihp ihq =>
    rcases sides_cases p q with rfl | ⟨rfl, hqne⟩ | ⟨hpne, hqne⟩
    · rw [textIn_alternation_empty, branches_alternation_empty]
      exact readsBack_repeat (ihp .operand) .zeroOrOne rfl context
    · rw [textIn_empty_alternation hqne, branches_empty_alternation hqne]
      exact readsBack_repeat (ihq .operand) .zeroOrOne rfl context
    · rw [textIn_alternation hpne hqne, branches_alternation hpne hqne]
      exact readsBack_encloseBranches
        (readsBack_bar (ihp .branch) (ihq .branch) hp.branches_ne_nil)
        (factors_append_branches hp hq hpne hqne) context
  | star _ ih =>
    rw [textIn]
    exact readsBack_repeat (ih .operand) .zeroOrMore rfl context
  | empty =>
    have hbranch : Context.branch.ReadsBack [] [.empty] := fun before =>
      ⟨_, Frame.value_pushAll before [], fun outer => Progress.takes_nil _⟩
    exact readsBack_encloseBranches hbranch rfl context

theorem Parsed.parse_text (h : p.Parsed) : parse p.text = .ok p.reassociated := by
  obtain ⟨f, hf, htakes⟩ := h.readsBack .branch none
  rw [text, (htakes []).parse, hf]
  rfl

/-- What a parsed pattern is written as is parsed, as the reassociated tree, and this is written in
the same way. -/
theorem parse_text_of_parse {source : List Char} (h : parse source = .ok p) :
    parse p.text = .ok p.reassociated ∧ p.reassociated.text = p.text :=
  ⟨(parsed_of_parse h).parse_text, (parsed_of_parse h).textIn_reassociated .branch⟩

/-- A concatenation in another, an alternation on the right of a bar, and empty left sides. -/
def nested : Pattern :=
  .concat [
    .alternation .empty (.concat [.concat [.literal (.single 'a'), .literal (.single 'b')],
      .star (.concat [.literal (.single 'a'), .literal (.single 'b')])]),
    .alternation (.alternation (.literal (.single 'c')) .empty)
      (.alternation (.literal (.single 'd')) (.alternation .empty (.literal (.single 'e')))),
    .literal (.single 'z')]

theorem parse_text_nested : parse "(|(ab)+)((c|)|(d|(|e)))[z]".toList = .ok nested ∧
    nested.text = "(ab(ab)*)?(c?|d|e?)z".toList ∧
    parse nested.text = .ok nested.reassociated ∧ nested.reassociated ≠ nested ∧
    nested.reassociated.text = nested.text := by
  have hparse : parse "(|(ab)+)((c|)|(d|(|e)))[z]".toList = .ok nested := by
    rw [parse_eq_ofTokens]
    with_unfolding_all rfl
  have htext : nested.text = "(ab(ab)*)?(c?|d|e?)z".toList := by rfl
  have hne : nested.reassociated ≠ nested := by
    intro h
    cases h
  obtain ⟨hread, hsame⟩ := parse_text_of_parse hparse
  exact ⟨hparse, htext, hread, hne, hsame⟩

end Pattern

end RegularLanguages
