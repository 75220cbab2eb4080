import RegularLanguages.Proofs.Pattern.Grammar

/-!
# What is parsed is what the grammar derives

`Derives` is the grammar of patterns over tokens, with the tree of each phrase. Reading the tokens
of a phrase adds its tree to the frame under way (`Derives.taken`), and in the other direction the
frames of a reader say how the tokens read so far divide into phrases (`Progress.Spelled`), which
each read keeps. So a text is parsed as a tree if and only if its tokens derive that tree, and no
tokens derive two trees.
-/

namespace RegularLanguages

/-- The kinds of phrases, from the loosest to the tightest. -/
inductive Phrase where
  | alternation
  | concatenation
  | repetition
  | atom

/-- The tokens are a phrase of the kind, with the tree. -/
inductive Derives : Phrase → List Token → Pattern → Prop where
  | branch {ts : List Token} {p : Pattern} :
      Derives .concatenation ts p → Derives .alternation ts p
  | bar {ts us : List Token} {p q : Pattern} :
      Derives .alternation ts p → Derives .concatenation us q →
      Derives .alternation (ts ++ .bar :: us) (.alternation p q)
  | noPart : Derives .concatenation [] .empty
  | onePart {ts : List Token} {p : Pattern} :
      Derives .repetition ts p → Derives .concatenation ts p
  /-- Each item has its tokens and its tree. -/
  | parts {items : List (List Token × Pattern)} :
      2 ≤ items.length → (∀ i ∈ items, Derives .repetition i.1 i.2) →
      Derives .concatenation (items.flatMap Prod.fst) (.concat (items.map Prod.snd))
  | once {ts : List Token} {p : Pattern} : Derives .atom ts p → Derives .repetition ts p
  | zeroOrMore {ts : List Token} {p : Pattern} : Derives .repetition ts p →
      Derives .repetition (ts ++ [.repetition .zeroOrMore]) (.star p)
  | zeroOrOne {ts : List Token} {p : Pattern} : Derives .repetition ts p →
      Derives .repetition (ts ++ [.repetition .zeroOrOne]) (.alternation p .empty)
  | oneOrMore {ts : List Token} {p : Pattern} : Derives .repetition ts p →
      Derives .repetition (ts ++ [.repetition .oneOrMore]) (.concat [p, .star p])
  | literal (c : Char) : Derives .atom [.literal c] (.literal (.single c))
  | dot : Derives .atom [.dot] (.literal .universal)
  | bracket (k : CharClass) : Derives .atom [.bracket k] (.literal k)
  | group {ts : List Token} {p : Pattern} : Derives .alternation ts p →
      Derives .atom (.leftParen :: (ts ++ [.rightParen])) p

theorem Pattern.ofParts_eq_concat {ps : List Pattern} (h : 2 ≤ ps.length) :
    ofParts ps = .concat ps := by
  match ps with
  | [] => cases h
  | [_] => exact absurd h (Nat.lt_irrefl 1)
  | _ :: _ :: _ => rfl

/-! ## What is derived is read -/

namespace Progress

variable {s s₁ s' : Progress} {ts us : List Token} {t : Token}

/-- The tokens, wherever they were read from, take the reader from `s` to `s'`. -/
def Reads (ts : List Token) (s s' : Progress) : Prop :=
  ∀ tokens : List (Token × Span), tokens.map Prod.fst = ts → tokens.foldlM read s = .ok s'

theorem reads_nil (s : Progress) : Reads [] s s := fun tokens h => by
  rw [List.map_eq_nil_iff.1 h]
  rfl

theorem reads_token (h : ∀ span, s.read (t, span) = .ok s') : Reads [t] s s' := fun tokens ht => by
  obtain ⟨⟨t', span⟩, rest, rfl, rfl, hrest⟩ := List.map_eq_cons_iff.1 ht
  rw [List.map_eq_nil_iff.1 hrest, List.foldlM_cons, h]
  rfl

theorem Reads.append (hts : Reads ts s s₁) (hus : Reads us s₁ s') : Reads (ts ++ us) s s' :=
  fun tokens h => by
    obtain ⟨first, second, rfl, hfirst, hsecond⟩ := List.map_eq_append_iff.1 h
    rw [List.foldlM_append, hts first hfirst]
    exact hus second hsecond

theorem reads_flatMap {items : List (List Token × Pattern)}
    (h : ∀ i ∈ items, ∀ f outer, Reads i.1 ⟨f, outer⟩ ⟨f.push i.2, outer⟩) (f : Frame)
    (outer : List Frame) :
    Reads (items.flatMap Prod.fst) ⟨f, outer⟩ ⟨f.pushAll (items.map Prod.snd), outer⟩ := by
  induction items generalizing f with
  | nil => exact reads_nil _
  | cons i rest ih =>
    obtain ⟨hi, hrest⟩ := List.forall_mem_cons.1 h
    have hpush :
        f.pushAll ((i :: rest).map Prod.snd) = (f.push i.2).pushAll (rest.map Prod.snd) := by
      simp [Frame.pushAll, Frame.push]
    rw [hpush]
    exact (hi f outer).append (ih hrest (f.push i.2))

end Progress

open Progress (Reads)

/-- Where a phrase is read, its tree is added. -/
def Phrase.Taken : Phrase → List Token → Pattern → Prop
  | .alternation, ts, p => ∀ outer, ∃ f : Frame, f.value = p ∧ Reads ts ⟨.start, outer⟩ ⟨f, outer⟩
  | .concatenation, ts, p => ∀ before outer, ∃ f : Frame, f.before = before ∧ f.branch = p ∧
      Reads ts ⟨⟨before, []⟩, outer⟩ ⟨f, outer⟩
  | _, ts, p => ∀ f outer, Reads ts ⟨f, outer⟩ ⟨f.push p, outer⟩

theorem Derives.taken {φ : Phrase} {ts : List Token} {p : Pattern} (h : Derives φ ts p) :
    φ.Taken ts p := by
  induction h with
  | branch _ ih =>
    intro outer
    obtain ⟨f, hbefore, rfl, hreads⟩ := ih none outer
    exact ⟨f, by rw [Frame.value, hbefore], hreads⟩
  | bar _ _ ih ih' =>
    intro outer
    obtain ⟨f, rfl, hreads⟩ := ih outer
    obtain ⟨f', hbefore, rfl, hreads'⟩ := ih' (some f.value) outer
    have hbar : Reads [.bar] ⟨f, outer⟩ ⟨f.bar, outer⟩ := Progress.reads_token fun _ => rfl
    exact ⟨f', by rw [Frame.value, hbefore], hreads.append (hbar.append hreads')⟩
  | noPart => exact fun before outer => ⟨⟨before, []⟩, rfl, rfl, Progress.reads_nil _⟩
  | @onePart ts p _ ih => exact fun before outer => ⟨⟨before, [p]⟩, rfl, rfl, ih ⟨before, []⟩ outer⟩
  | @parts items hlength _ ih =>
    intro before outer
    refine ⟨_, rfl, ?_, Progress.reads_flatMap ih ⟨before, []⟩ outer⟩
    rw [Frame.branch, Frame.pushAll, List.append_nil, List.reverse_reverse,
      Pattern.ofParts_eq_concat (by rwa [List.length_map])]
  | once _ ih => exact ih
  | zeroOrMore _ ih =>
    exact fun f outer => (ih f outer).append (Progress.reads_token fun _ => rfl)
  | zeroOrOne _ ih =>
    exact fun f outer => (ih f outer).append (Progress.reads_token fun _ => rfl)
  | oneOrMore _ ih =>
    exact fun f outer => (ih f outer).append (Progress.reads_token fun _ => rfl)
  | literal c => exact fun f outer => Progress.reads_token fun _ => rfl
  | dot => exact fun f outer => Progress.reads_token fun _ => rfl
  | bracket k => exact fun f outer => Progress.reads_token fun _ => rfl
  | group _ ih =>
    intro f outer
    obtain ⟨f', rfl, hreads⟩ := ih (f :: outer)
    have hopen : Reads [.leftParen] ⟨f, outer⟩ ⟨.start, f :: outer⟩ :=
      Progress.reads_token fun _ => rfl
    have hclose : Reads [.rightParen] ⟨f', f :: outer⟩ ⟨f.push f'.value, outer⟩ :=
      Progress.reads_token fun _ => rfl
    exact hopen.append (hreads.append hclose)

/-! ## What is read is derived -/

theorem Derives.apply {ts : List Token} {p : Pattern} (h : Derives .repetition ts p)
    (op : Repetition) : Derives .repetition (ts ++ [.repetition op]) (op.apply p) := by
  cases op with
  | zeroOrMore => exact .zeroOrMore h
  | zeroOrOne => exact .zeroOrOne h
  | oneOrMore => exact .oneOrMore h

theorem derives_ofParts {items : List (List Token × Pattern)}
    (h : ∀ i ∈ items, Derives .repetition i.1 i.2) :
    Derives .concatenation (items.flatMap Prod.fst) (.ofParts (items.map Prod.snd)) := by
  match items with
  | [] => exact .noPart
  | [i] =>
    have hi : Derives .repetition i.1 i.2 := h i (List.mem_singleton_self i)
    rw [List.flatMap_singleton]
    exact .onePart hi
  | i :: j :: rest =>
    exact .parts (Nat.le_add_left ..) h

/-- The tokens of a frame up to its last bar. -/
def Frame.Opened : Option Pattern → List Token → Prop
  | none, ts => ts = []
  | some p, ts => ∃ us, Derives .alternation us p ∧ ts = us ++ [.bar]

/-- The tokens are those read into the frame: up to its last bar, then an item for each part. -/
def Frame.Spelled (f : Frame) (ts : List Token) : Prop :=
  ∃ (us : List Token) (items : List (List Token × Pattern)), Opened f.before us ∧
    (∀ i ∈ items, Derives .repetition i.1 i.2) ∧
    f.parts = items.map Prod.snd ∧ ts = us ++ items.reverse.flatMap Prod.fst

namespace Frame

variable {f : Frame} {ts us : List Token} {p : Pattern}

theorem spelled_start : Spelled .start [] := ⟨[], [], rfl, nofun, rfl, rfl⟩

theorem Spelled.push (h : f.Spelled ts) (hp : Derives .repetition us p) :
    (f.push p).Spelled (ts ++ us) := by
  obtain ⟨vs, items, hopened, hitems, hparts, rfl⟩ := h
  refine ⟨vs, (us, p) :: items, hopened, List.forall_mem_cons.2 ⟨hp, hitems⟩, ?_, ?_⟩
  · rw [Frame.push, hparts, List.map_cons]
  · simp

theorem Spelled.derives (h : f.Spelled ts) : Derives .alternation ts f.value := by
  obtain ⟨us, items, hopened, hitems, hparts, rfl⟩ := h
  obtain ⟨before, parts⟩ := f
  have hbranch := derives_ofParts fun i hi => hitems i (List.mem_reverse.1 hi)
  rw [List.map_reverse, ← hparts] at hbranch
  cases before with
  | none =>
    obtain rfl : us = [] := hopened
    exact .branch hbranch
  | some p =>
    obtain ⟨vs, hp, rfl⟩ := hopened
    rw [List.append_assoc]
    exact .bar hp hbranch

theorem Spelled.bar (h : f.Spelled ts) : f.bar.Spelled (ts ++ [.bar]) :=
  ⟨ts ++ [.bar], [], ⟨ts, h.derives, rfl⟩, nofun, rfl, (List.append_nil _).symm⟩

theorem Spelled.repeatLast? {f' : Frame} {op : Repetition} (h : f.Spelled ts)
    (hf' : f.repeatLast? op = some f') : f'.Spelled (ts ++ [.repetition op]) := by
  obtain ⟨us, items, hopened, hitems, hparts, rfl⟩ := h
  obtain ⟨before, parts⟩ := f
  obtain rfl : parts = items.map Prod.snd := hparts
  cases items with
  | nil => cases hf'
  | cons i rest =>
    obtain ⟨hi, hrest⟩ := List.forall_mem_cons.1 hitems
    cases hf'
    refine ⟨us, (i.1 ++ [.repetition op], op.apply i.2) :: rest, hopened,
      List.forall_mem_cons.2 ⟨hi.apply op, hrest⟩, rfl, ?_⟩
    simp

end Frame

namespace Progress

variable {s s' : Progress} {ts : List Token}

/-- The tokens are those before the parentheses of the open groups, and these parentheses. -/
def Enclosed : List Frame → List Token → Prop
  | [], ts => ts = []
  | f :: outer, ts => ∃ us vs, Enclosed outer us ∧ f.Spelled vs ∧ ts = us ++ vs ++ [.leftParen]

/-- The tokens are those read so far. -/
def Spelled (s : Progress) (ts : List Token) : Prop :=
  ∃ us vs, Enclosed s.outer us ∧ s.current.Spelled vs ∧ ts = us ++ vs

theorem spelled_start : Spelled .start [] := ⟨[], [], rfl, Frame.spelled_start, rfl⟩

theorem Spelled.push {p : Pattern} {us : List Token} (h : s.Spelled ts)
    (hp : Derives .repetition us p) : (s.push p).Spelled (ts ++ us) := by
  obtain ⟨vs, ws, henclosed, hspelled, rfl⟩ := h
  exact ⟨vs, ws ++ us, henclosed, hspelled.push hp, List.append_assoc ..⟩

/-- One read. -/
theorem Spelled.read {t : Token} {span : Span} (h : s.Spelled ts)
    (hs' : s.read (t, span) = .ok s') : s'.Spelled (ts ++ [t]) := by
  cases t with
  | literal c =>
    cases hs'
    exact h.push (.once (.literal c))
  | dot =>
    cases hs'
    exact h.push (.once .dot)
  | bracket k =>
    cases hs'
    exact h.push (.once (.bracket k))
  | bar =>
    cases hs'
    obtain ⟨us, vs, henclosed, hspelled, rfl⟩ := h
    exact ⟨us, vs ++ [.bar], henclosed, hspelled.bar, List.append_assoc ..⟩
  | leftParen =>
    cases hs'
    obtain ⟨us, vs, henclosed, hspelled, rfl⟩ := h
    exact ⟨us ++ vs ++ [.leftParen], [], ⟨us, vs, henclosed, hspelled, rfl⟩, Frame.spelled_start,
      (List.append_nil _).symm⟩
  | rightParen =>
    obtain ⟨us, vs, henclosed, hspelled, rfl⟩ := h
    obtain ⟨current, _ | ⟨f, outer⟩⟩ := s
    · cases hs'
    · cases hs'
      obtain ⟨us', vs', henclosed', hspelled', rfl⟩ := henclosed
      refine ⟨us', _, henclosed', hspelled'.push (.once (.group hspelled.derives)), ?_⟩
      simp
  | repetition op =>
    obtain ⟨us, vs, henclosed, hspelled, rfl⟩ := h
    rw [Progress.read] at hs'
    split at hs'
    · cases hs'
    · rename_i f hf
      cases hs'
      exact ⟨us, _, henclosed, hspelled.repeatLast? hf, List.append_assoc ..⟩

/-- A run of reads. -/
theorem Spelled.foldlM {tokens : List (Token × Span)} (h : s.Spelled ts)
    (hs' : tokens.foldlM Progress.read s = .ok s') : s'.Spelled (ts ++ tokens.map Prod.fst) := by
  induction tokens generalizing s ts with
  | nil =>
    cases hs'
    rwa [List.map_nil, List.append_nil]
  | cons t rest ih =>
    rw [List.foldlM_cons] at hs'
    cases hread : s.read t with
    | error e =>
      rw [hread] at hs'
      cases hs'
    | ok s₁ =>
      rw [hread] at hs'
      have h' := ih (h.read hread) hs'
      rwa [List.append_assoc] at h'

end Progress

/-! ## Parsing -/

/-- A phrase is also one of every looser kind. -/
theorem Derives.alternation {φ : Phrase} {ts : List Token} {p : Pattern} (h : Derives φ ts p) :
    Derives .alternation ts p := by
  cases φ with
  | alternation => exact h
  | concatenation => exact .branch h
  | repetition => exact .branch (.onePart h)
  | atom => exact .branch (.onePart (.once h))

/-- No tokens derive two trees. -/
theorem Derives.unique {φ : Phrase} {ts : List Token} {p q : Pattern} (hp : Derives φ ts p)
    (hq : Derives φ ts q) : p = q := by
  obtain ⟨f, rfl, hf⟩ := hp.alternation.taken []
  obtain ⟨f', rfl, hf'⟩ := hq.alternation.taken []
  have htokens : (ts.map fun t => (t, (default : Span))).map Prod.fst = ts := by
    rw [List.map_map]
    exact List.map_id ts
  have heq := (hf _ htokens).symm.trans (hf' _ htokens)
  cases heq
  rfl

theorem Cursor.length_tokens_scan_le (c : Cursor) : c.scan.tokens.length ≤ c.rest.length := by
  fun_induction Cursor.scan c with
  | case1 p => exact Nat.le_refl _
  | case2 p c rest e after h => exact Nat.zero_le _
  | case3 p c rest span after h => exact Nat.zero_le _
  | case4 p c rest t span after h later ih => exact Nat.lt_of_le_of_lt ih (rest_lt_of_next h)

namespace TokenStream

variable {s : TokenStream}

theorem filterMap_token {ls : List Lexeme} (h : s.lexemes = .ok ls) :
    ls.filterMap Lexeme.token = s.tokens.map Prod.fst := by
  obtain ⟨span, -, rfl⟩ := lexemes_eq_ok_iff.1 h
  simp [List.filterMap_map]

end TokenStream

namespace Pattern

/-- The pattern of a stream that ends without an error is the one its tokens derive. -/
theorem ofTokens_eq_ok_iff {s : TokenStream} {p : Pattern} : ofTokens s = .ok p ↔
    (∃ span, s.ending = .ok span) ∧ Derives .alternation (s.tokens.map Prod.fst) p := by
  constructor
  · intro h
    unfold ofTokens Progress.readAll at h
    cases hread : s.tokens.foldlM Progress.read .start with
    | error e =>
      rw [hread] at h
      cases h
    | ok progress =>
      cases hend : s.ending with
      | error e =>
        rw [hread, hend] at h
        cases h
      | ok span =>
        rw [hread, hend] at h
        obtain ⟨us, vs, henclosed, hspelled, htokens⟩ := Progress.spelled_start.foldlM hread
        obtain ⟨current, _ | ⟨f, outer⟩⟩ := progress
        · cases h
          obtain rfl : us = [] := henclosed
          refine ⟨⟨span, rfl⟩, ?_⟩
          rw [List.nil_append] at htokens
          rw [htokens]
          exact hspelled.derives
        · cases h
  · rintro ⟨⟨span, hend⟩, h⟩
    obtain ⟨f, rfl, hreads⟩ := h.taken []
    have hread : s.tokens.foldlM Progress.read .start = .ok ⟨f, []⟩ := hreads _ rfl
    rw [ofTokens, Progress.readAll, hread, hend]
    rfl

/-- The text has tokens, and these derive the pattern. -/
def DerivedFrom (p : Pattern) (source : List Char) : Prop :=
  ∃ lexemes, (TokenStream.ofSource source).lexemes = .ok lexemes ∧
    Derives .alternation (lexemes.filterMap Lexeme.token) p

/-- A text is parsed as the one tree that its tokens derive, if they derive any. There are no more
tokens to read than characters. -/
theorem parse_eq_ok_iff (source : List Char) :
    (∀ p, parse source = .ok p ↔ p.DerivedFrom source) ∧
    (∀ p q, DerivedFrom p source → DerivedFrom q source → p = q) ∧
    (TokenStream.ofSource source).tokens.length ≤ source.length := by
  refine ⟨fun p => ?_, ?_, (Cursor.start source).length_tokens_scan_le⟩
  · rw [parse_eq_ofTokens, ofTokens_eq_ok_iff, DerivedFrom]
    constructor
    · rintro ⟨⟨span, hend⟩, h⟩
      have hlexemes := TokenStream.lexemes_eq_ok_iff.2 ⟨span, hend, rfl⟩
      exact ⟨_, hlexemes, TokenStream.filterMap_token hlexemes ▸ h⟩
    · rintro ⟨lexemes, hlexemes, h⟩
      obtain ⟨span, hend, -⟩ := TokenStream.lexemes_eq_ok_iff.1 hlexemes
      exact ⟨⟨span, hend⟩, TokenStream.filterMap_token hlexemes ▸ h⟩
  · rintro p q ⟨lexemes, hlexemes, hp⟩ ⟨lexemes', hlexemes', hq⟩
    cases hlexemes.symm.trans hlexemes'
    exact hp.unique hq

end Pattern

end RegularLanguages
