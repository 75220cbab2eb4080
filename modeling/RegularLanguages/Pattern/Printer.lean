import RegularLanguages.Pattern.Basic

/-!
# Written forms of a pattern

`Pattern.text` writes a pattern in pattern syntax, with parentheses only where a `Context` calls
for them. An alternation with `empty` on one side is written as its other side and `?`, and `null`
as the empty brackets. `Pattern.tree` shows the tree itself.
-/

namespace RegularLanguages

/-- Where a pattern stands in a written form. -/
inductive Context where
  /-- The whole text, or one side of a bar. -/
  | branch
  /-- A part of a concatenation. -/
  | part
  /-- What a postfix operator applies to. -/
  | operand
  deriving DecidableEq

namespace Context

/-- Parentheses around a text that holds a bar, except as a branch. -/
def encloseBranches : Context → List Char → List Char
  | branch, s => s
  | _, s => '(' :: (s ++ [')'])

/-- Parentheses around several parts, only as an operand. -/
def encloseParts : Context → List Char → List Char
  | operand, s => '(' :: (s ++ [')'])
  | _, s => s

end Context

namespace Pattern

mutual

/-- The pattern in pattern syntax, as it is written in a context. -/
def textIn : Pattern → Context → List Char
  | literal k, _ => k.text
  | null, _ => "[]".toList
  | empty, context => context.encloseBranches []
  | concat [], context => context.encloseBranches []
  | concat [p], context => p.textIn context
  | concat parts, context => context.encloseParts (partsText parts)
  | alternation p empty, _ => p.textIn .operand ++ ['?']
  | alternation empty q, _ => q.textIn .operand ++ ['?']
  | alternation p q, context =>
    context.encloseBranches (p.textIn .branch ++ '|' :: q.textIn .branch)
  | star p, _ => p.textIn .operand ++ ['*']

def partsText : List Pattern → List Char
  | [] => []
  | p :: rest => p.textIn .part ++ partsText rest

end

/-- The pattern in pattern syntax. -/
def text (p : Pattern) : List Char := p.textIn .branch

mutual

/-- The tree in parentheses, each node with its name first. -/
def tree : Pattern → List Char
  | literal k => "(lit '".toList ++ k.label ++ "')".toList
  | concat parts => "(concat".toList ++ treeAll parts ++ [')']
  | alternation p q => "(alt ".toList ++ p.tree ++ ' ' :: q.tree ++ [')']
  | star p => "(kleene ".toList ++ p.tree ++ [')']
  | empty => ['ε']
  | null => ['∅']

def treeAll : List Pattern → List Char
  | [] => []
  | p :: rest => ' ' :: p.tree ++ treeAll rest

end

end Pattern

end RegularLanguages
