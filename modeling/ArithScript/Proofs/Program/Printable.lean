import ArithScript.Grammar.Lexeme
import ArithScript.Program.Printer

/-! Programs that can be printed as text, their outermost binary expressions, and the characters that
are printed. -/
namespace ArithScript

/-- A letter or underscore, then letters, digits and underscores. -/
def isName (name : String) : Bool :=
  match name.toList with
  | [] => false
  | c :: rest => Lexeme.isNameStart c && rest.all Lexeme.isNamePart

namespace Expr

/-- Every node has a known form, names can be read as names, and numbers are finite. -/
def Printable : Expr → Prop
  | .number value _ => value.isFinite = true
  | .ident name _ => isName name = true
  | .call1 _ argument _ => Printable argument
  | .call2 _ first second _ => Printable first ∧ Printable second
  | .binary _ left right _ => Printable left ∧ Printable right
  | .unknown => False

/-- The binary expressions that stand in no other one, from left to right. -/
def outermostBinaries : Expr → List Expr
  | .call1 _ argument _ => outermostBinaries argument
  | .call2 _ first second _ => outermostBinaries first ++ outermostBinaries second
  | .binary op left right loc => [.binary op left right loc]
  | _ => []

/-- The expression without places. -/
def bare : Expr → Expr
  | .number value _ => .number value none
  | .ident name _ => .ident name none
  | .call1 f argument _ => .call1 f (bare argument) none
  | .call2 f first second _ => .call2 f (bare first) (bare second) none
  | .binary op left right _ => .binary op (bare left) (bare right) none
  | .unknown => .unknown

/-- No number is infinite. -/
def NoOverflow : Expr → Prop
  | .number value _ => value.isInfinite = false
  | .call1 _ argument _ => NoOverflow argument
  | .call2 _ first second _ => NoOverflow first ∧ NoOverflow second
  | .binary _ left right _ => NoOverflow left ∧ NoOverflow right
  | _ => True

end Expr

namespace Stmt

def Printable : Stmt → Prop
  | .define name value _ => isName name = true ∧ value.Printable
  | .expr e _ => e.Printable
  | .unknown => False

def outermostBinaries : Stmt → List Expr
  | .define _ value _ => value.outermostBinaries
  | .expr e _ => e.outermostBinaries
  | .unknown => []

/-- The statement without places. -/
def bare : Stmt → Stmt
  | .define name value _ => .define name value.bare none
  | .expr e _ => .expr e.bare none
  | .unknown => .unknown

def NoOverflow : Stmt → Prop
  | .define _ value _ => value.NoOverflow
  | .expr e _ => e.NoOverflow
  | .unknown => True

end Stmt

def Program.outermostBinaries (p : Program) : List Expr := p.flatMap Stmt.outermostBinaries

namespace Expr

theorem textWithin_eq (e : Expr) (levels : List (Operator × String)) :
    e.textWithin levels = closeLevels levels e.plainText := by
  induction e generalizing levels with
  | number value loc => rfl
  | ident name loc => rfl
  | call1 f argument loc ih =>
    rw [textWithin, plainText, ih []]
    rfl
  | call2 f first second loc ihf ihs =>
    rw [textWithin, plainText, ihf [], ihs []]
    rfl
  | binary op left right loc ihl ihr =>
    rw [textWithin, plainText, ihl, ihr []]
    rfl
  | unknown => rfl

/-- Walking down the left operands prints what direct recursion prints. -/
theorem text_eq_plainText (e : Expr) : e.text = e.plainText := textWithin_eq e []

theorem toList_text_number (x : Binary64) (loc : Option Span) :
    (number x loc).text.toList = x.programChars := by
  rw [text_eq_plainText, plainText, Binary64.programText, String.toList_ofList]

theorem toList_text_call1 (f : UnaryBuiltin) (argument : Expr) (loc : Option Span) :
    (call1 f argument loc).text.toList =
      f.name.toList ++ (['('] ++ (argument.text.toList ++ [')'])) := by
  simp [text_eq_plainText, plainText, callText]

theorem toList_text_call2 (f : BinaryBuiltin) (first second : Expr) (loc : Option Span) :
    (call2 f first second loc).text.toList =
      f.name.toList ++ (['('] ++ (first.text.toList ++ ([','] ++ ([' '] ++
        (second.text.toList ++ [')']))))) := by
  simp [text_eq_plainText, plainText, callText]

theorem toList_text_binary (op : Operator) (left right : Expr) (loc : Option Span) :
    (binary op left right loc).text.toList =
      ['('] ++ (left.text.toList ++ ([' '] ++ (op.symbol.toList ++ ([' '] ++
        (right.text.toList ++ [')']))))) := by
  simp [text_eq_plainText, plainText, binaryText]

end Expr

theorem Stmt.toList_text_define (name : String) (value : Expr) (loc : Option Span) :
    (define name value loc).text.toList =
      name.toList ++ ([' '] ++ (['='] ++ ([' '] ++ value.text.toList))) := by
  simp [text]

theorem Program.toList_text_cons (s : Stmt) (p : Program) :
    (Program.text (s :: p)).toList =
      s.text.toList ++ p.flatMap (fun s => '\n' :: s.text.toList) := by
  induction p generalizing s with
  | nil => simp [Program.text]
  | cons t p ih =>
    have h := ih t
    simp only [Program.text, String.toList_intercalate, List.map_cons] at h ⊢
    rw [List.intercalate_cons_cons, h]
    simp

end ArithScript
