/-!
# The visible part of a text

A terminal acts on the control characters of a text and on the sequences of characters that an
escape begins, and shows neither. `visible` is what is left of a text without them; tabs, line
feeds, form feeds and carriage returns are kept, because they only move what is shown.

`Sequence.next` follows a sequence to its end. An escape begins a new sequence anywhere, and the
characters CAN and SUB break off whatever is under way. A text without hidden controls is its own
visible part (`visible_eq_self`), and no visible part has one (`isHidden_of_mem_visible`).

This stands for the layer between the program and the terminal, through which its log and the
reports on its arguments go. What the commands print on standard output and the report on a pattern
do not pass through it, and no theorem on commands rests on it.
-/

namespace RegularLanguages.CommandLine

/-- Whether the number of `c` is one of `first` to `last`. -/
def isBetween (first last : Nat) (c : Char) : Bool := first ≤ c.toNat && c.toNat ≤ last

/-- Whether `c` is a control that only moves what is shown. -/
def isBlankControl (c : Char) : Bool := c = '\t' || c = '\n' || c = '\x0c' || c = '\r'

/-- Whether `c` is a control that is not shown. The controls after ASCII do not count. -/
def isHidden (c : Char) : Bool := (c.toNat < 0x20 || c.toNat = 0x7F) && !isBlankControl c

/-- What has been read of a sequence. -/
inductive Sequence where
  /-- The escape. -/
  | escape
  /-- The escape and the first characters of a sequence without parameters. -/
  | short
  /-- The opening bracket of a control sequence, and perhaps some of its parameters. -/
  | control
  /-- The beginning of a device control string. -/
  | device
  /-- Some parameters of a device control string. -/
  | deviceParameters
  /-- The last characters before the content of a device control string. -/
  | deviceIntermediate
  /-- The beginning of a command to the system, which the bell ends. -/
  | systemCommand
  /-- A string with a terminator, up to some place in its content. -/
  | content
  deriving DecidableEq

namespace Sequence

/-- The sequences that a character after the escape begins, `none` if it is complete with it. -/
def ofOpening? : Char → Option Sequence
  | '[' => some control
  | ']' => some systemCommand
  | 'P' => some device
  | 'X' | '^' | '_' => some content
  | _ => none

/-- Whether `c` ends the content of a string: the terminator is the byte `9C`, which may be any
byte of the character but the first. -/
def isTerminator (c : Char) : Bool := (String.utf8EncodeChar c).contains 0x9C

/-- What has been read with one more character, `none` if the sequence is complete with it. Escape,
CAN and SUB do not come here. -/
def next (s : Sequence) (c : Char) : Option Sequence :=
  match s with
  | escape =>
    if isBetween 0x20 0x2F c then some short
    else if isBetween 0x30 0x7E c then ofOpening? c
    else some escape
  | short => if isBetween 0x30 0x7E c then none else some short
  | control => if isBetween 0x40 0x7E c then none else some control
  | device =>
    if isBetween 0x20 0x2F c then some deviceIntermediate
    else if isBetween 0x30 0x3F c then some deviceParameters
    else if isBetween 0x40 0x7E c then some content
    else some device
  | deviceParameters =>
    if isBetween 0x20 0x2F c then some deviceIntermediate
    else if isBetween 0x3C 0x7E c then some content
    else some deviceParameters
  | deviceIntermediate => if isBetween 0x30 0x7E c then some content else some deviceIntermediate
  | systemCommand => if c = '\x07' then none else some systemCommand
  | content => if isTerminator c then none else some content

/-- Whether a blank control in the middle of the sequence is shown. -/
def showsBlanks : Sequence → Bool
  | escape | short | control => true
  | _ => false

end Sequence

/-- What the next character of a text belongs to. -/
inductive Mode where
  | text
  | sequence (s : Sequence)
  /-- Text after a blank control in the middle of `s`; a hidden control in it goes on with `s`. -/
  | interrupted (s : Sequence)
  deriving DecidableEq

def Mode.ofSequence? : Option Sequence → Mode
  | none => text
  | some s => sequence s

/-- The visible part of a text that begins in the given mode. -/
def visibleFrom : Mode → List Char → List Char
  | _, [] => []
  | mode, c :: rest =>
    if c = '\x1b' then visibleFrom (.sequence .escape) rest
    else if c = '\x18' || c = '\x1a' then visibleFrom .text rest
    else match mode with
    | .text => if isHidden c then visibleFrom .text rest else c :: visibleFrom .text rest
    | .sequence s =>
      if isBlankControl c && s.showsBlanks then c :: visibleFrom (.interrupted s) rest
      else visibleFrom (.ofSequence? (s.next c)) rest
    | .interrupted s =>
      if isHidden c then visibleFrom (.sequence s) rest
      else c :: visibleFrom (if c.toNat < 0x80 then .interrupted s else .text) rest

def visible (cs : List Char) : List Char := visibleFrom .text cs

theorem isHidden_of_isBlankControl {c : Char} (h : isBlankControl c = true) :
    isHidden c = false := by
  simp [isHidden, h]

theorem isHidden_of_mem_visibleFrom {mode : Mode} {cs : List Char} {c : Char}
    (h : c ∈ visibleFrom mode cs) : isHidden c = false := by
  fun_induction visibleFrom mode cs with
  | case1 => simp at h
  | case2 _ _ ih => exact ih h
  | case3 _ _ _ _ _ ih => exact ih h
  | case4 _ _ _ _ _ ih => exact ih h
  | case5 _ _ _ _ hx ih =>
    rcases List.mem_cons.1 h with rfl | h
    · simpa using hx
    · exact ih h
  | case6 _ _ _ _ _ hx ih =>
    rcases List.mem_cons.1 h with rfl | h
    · exact isHidden_of_isBlankControl (by simp_all)
    · exact ih h
  | case7 _ _ _ _ _ _ ih => exact ih h
  | case8 _ _ _ _ _ _ ih => exact ih h
  | case9 _ _ _ _ _ hx ih =>
    rcases List.mem_cons.1 h with rfl | h
    · simpa using hx
    · exact ih h

theorem isHidden_of_mem_visible {cs : List Char} {c : Char} (h : c ∈ visible cs) :
    isHidden c = false :=
  isHidden_of_mem_visibleFrom h

theorem visible_eq_self {cs : List Char} (h : ∀ c ∈ cs, isHidden c = false) : visible cs = cs := by
  induction cs with
  | nil => rfl
  | cons c rest ih =>
    have hc : isHidden c = false := h c (by simp)
    have hr : visibleFrom .text rest = rest := ih fun x hx => h x (by simp [hx])
    have h1 : c ≠ '\x1b' := by rintro rfl; exact absurd hc (by decide)
    have h2 : c ≠ '\x18' := by rintro rfl; exact absurd hc (by decide)
    have h3 : c ≠ '\x1a' := by rintro rfl; exact absurd hc (by decide)
    simp [visible, visibleFrom, h1, h2, h3, hc, hr]

end RegularLanguages.CommandLine
