import ArithScript.Grammar.Derivation

/-! The script grammar as its rules are written, with optional and repeated parts, and the trees of
its derivations. A tree stands for the rules alone: how they are spelled out as productions does not
enter. -/
namespace ArithScript

/-- The rules of the grammar. -/
inductive Rule
  | script | statement | assignment | exprStatement
  | expr | comparison | sum | product | factor | call | argList | atom
  deriving DecidableEq

/-- What a rule is written as. -/
inductive Pattern
  | token (t : Terminal)
  | rule (r : Rule)
  | seq (parts : List Pattern)
  | optional (part : Pattern)
  | repeated (part : Pattern)

/-- One way to apply a rule, and the construct that it is given as a name, if any. -/
structure Alternative where
  pattern : Pattern
  name : Option Construct := none

namespace Rule

/-- Rules that leave no node behind where they have only one child. -/
def inlined : Rule → Bool
  | .script | .assignment | .exprStatement | .argList => false
  | _ => true

def kind : Rule → Kind
  | .script => .construct .script
  | .statement => .other "statement"
  | .assignment => .construct .assignment
  | .exprStatement => .construct .exprStatement
  | .expr => .other "expr"
  | .comparison => .other "comparison"
  | .sum => .other "sum"
  | .product => .other "product"
  | .factor => .other "factor"
  | .call => .other "call"
  | .argList => .construct .argList
  | .atom => .other "atom"

def infixed (left : Rule) (t : Terminal) (right : Rule) : Alternative :=
  ⟨.seq [.rule left, .token t, .rule right], some .binary⟩

def signed (t : Terminal) : Alternative := ⟨.seq [.token t, .rule .factor], some .unary⟩

def only (part : Pattern) : Alternative := ⟨.seq [part], none⟩

def finishedLine : Pattern := .seq [.rule .statement, .token .newline]

def nextArgument : Pattern := .seq [.token .comma, .rule .expr]

/-- The lines of a script, the last one finished or not. -/
def scriptLines : Alternative :=
  ⟨.seq [.optional (.token .newline), .repeated finishedLine, .optional (.rule .statement)], none⟩

/-- Arguments in parentheses, if any, with a comma after the last one or not. -/
def argumentItems : Alternative :=
  ⟨.seq [.token .lpar,
    .optional (.seq [.rule .expr, .repeated nextArgument, .optional (.token .comma)]),
    .token .rpar], none⟩

/-- The alternatives of each rule. -/
def alternatives : Rule → List Alternative
  | .script => [scriptLines]
  | .statement => [only (.rule .assignment), only (.rule .exprStatement)]
  | .assignment => [⟨.seq [.token .name, .token .equal, .rule .expr], none⟩]
  | .exprStatement => [only (.rule .expr)]
  | .expr => [only (.rule .comparison)]
  | .comparison => [only (.rule .sum), infixed .comparison .compOp .sum]
  | .sum => [only (.rule .product), infixed .sum .plus .product, infixed .sum .minus .product]
  | .product =>
    [only (.rule .factor), infixed .product .star .factor, infixed .product .slash .factor,
      infixed .product .percent .factor]
  | .factor => [only (.rule .call), signed .plus, signed .minus, signed .tilde]
  | .call => [only (.rule .atom), ⟨.seq [.rule .call, .rule .argList], some .call⟩]
  | .argList => [argumentItems]
  | .atom =>
    [only (.token .number), only (.token .name), only (.token .string),
      ⟨.seq [.token .lpar, .rule .expr, .token .rpar], some .paren⟩]

end Rule

def StartSymbol.rule : StartSymbol → Rule
  | .script => .script
  | .expr => .expr

/-- A tree of rules over tokens. -/
inductive ParseTree
  | leaf (token : Token)
  | node (rule : Rule) (alternative : Alternative) (children : List ParseTree)

/-- Consecutive trees that a pattern describes, whatever is below them. -/
inductive Pattern.Matches : Pattern → List ParseTree → Prop
  | token (token : Token) : Matches (.token token.terminal) [.leaf token]
  | rule (r : Rule) (alternative : Alternative) (children : List ParseTree) :
      Matches (.rule r) [.node r alternative children]
  | seqNil : Matches (.seq []) []
  | seqCons {part : Pattern} {parts : List Pattern} {trees later : List ParseTree}
      (first : Matches part trees) (rest : Matches (.seq parts) later) :
      Matches (.seq (part :: parts)) (trees ++ later)
  | absent {part : Pattern} : Matches (.optional part) []
  | present {part : Pattern} {trees : List ParseTree} (once : Matches part trees) :
      Matches (.optional part) trees
  | finished {part : Pattern} : Matches (.repeated part) []
  | again {part : Pattern} {trees later : List ParseTree} (first : Matches part trees)
      (rest : Matches (.repeated part) later) : Matches (.repeated part) (trees ++ later)

/-- The text from the first to the last of the tokens. -/
def Token.extent? (tokens : List Token) : Option Extent :=
  match tokens.head?, tokens.getLast? with
  | some first, some last => some ⟨first.start, last.stop⟩
  | _, _ => none

namespace ParseTree

mutual

/-- Every node applies an alternative of its rule. -/
def Valid : ParseTree → Prop
  | .leaf _ => True
  | .node rule alternative children =>
    alternative ∈ rule.alternatives ∧ alternative.pattern.Matches children ∧ ValidAll children

def ValidAll : List ParseTree → Prop
  | [] => True
  | p :: rest => Valid p ∧ ValidAll rest

end

mutual

def yield : ParseTree → List Token
  | .leaf token => [token]
  | .node _ _ children => yieldAll children

def yieldAll : List ParseTree → List Token
  | [] => []
  | p :: rest => yield p ++ yieldAll rest

end

mutual

/-- The concrete tree of a derivation. Line breaks are left out and all other tokens are kept. An
alternative with a name makes a node of that name, and a rule that is inlined gives way to its only
child. -/
def image : ParseTree → Option Tree
  | .leaf token =>
    if token.terminal = .newline then none
    else some (.token (.terminal token.terminal) token.text (some token.start) (some token.stop))
  | .node rule alternative children =>
    let extent := Token.extent? (yieldAll children)
    match alternative.name, rule.inlined, imageAll children with
    | some construct, _, trees => some (.node (.construct construct) extent trees)
    | none, true, [tree] => some tree
    | none, _, trees => some (.node rule.kind extent trees)

def imageAll : List ParseTree → List Tree
  | [] => []
  | p :: rest => (image p).toList ++ imageAll rest

end

/-- The tree derives the tokens from the rule of the start symbol. -/
structure Derives (start : StartSymbol) (p : ParseTree) (tokens : List Token) : Prop where
  valid : p.Valid
  rule_eq : ∃ alternative children, p = .node start.rule alternative children
  yield_eq : p.yield = tokens

end ParseTree
end ArithScript
