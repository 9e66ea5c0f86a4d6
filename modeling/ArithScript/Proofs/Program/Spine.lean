import ArithScript.Proofs.Program.Printable

/-!
The text of an expression along its left spine, and by direct recursion.

The levels of the spine open before anything else is printed and close one after the other behind
the leftmost operand. What is printed this way are the values of the only function that prints every
node around what it prints for the operands.
-/
namespace ArithScript

theorem closeLevels_append (levels more : List (Operator × String)) (text : String) :
    closeLevels (levels ++ more) text = closeLevels more (closeLevels levels text) :=
  List.foldl_append

namespace Expr

/-- The operand at which the left spine ends: the expression itself if it is not binary. -/
def leftmost : Expr → Expr
  | .binary _ left _ _ => leftmost left
  | e => e

/-- The operators and right operands along the left spine, the innermost first. -/
def spine : Expr → List (Operator × Expr)
  | .binary op left right _ => spine left ++ [(op, right)]
  | _ => []

theorem text_funext : text = plainText := funext text_eq_plainText

theorem plainText_spine (e : Expr) :
    e.plainText = closeLevels (e.spine.map (Prod.map id plainText)) e.leftmost.plainText := by
  induction e with
  | binary op left right loc ihl ihr =>
    rw [plainText, spine, leftmost, List.map_append, closeLevels_append, ← ihl]
    rfl
  | _ => rfl

/-- The text of an expression is that of its leftmost operand with the levels of the spine closed
around it. -/
theorem text_spine (e : Expr) :
    e.text = closeLevels (e.spine.map (Prod.map id text)) e.leftmost.text := by
  rw [text_funext]
  exact e.plainText_spine

/-- The equations of printing by direct recursion: what is printed for a node depends on its
operands only by what is printed for them. -/
structure PrintsDirectly (print : Expr → String) : Prop where
  number : ∀ value loc, print (.number value loc) = value.programText
  ident : ∀ name loc, print (.ident name loc) = name
  call1 : ∀ f argument loc, print (.call1 f argument loc) = f.name ++ "(" ++ print argument ++ ")"
  call2 : ∀ f first second loc,
    print (.call2 f first second loc) = f.name ++ "(" ++ print first ++ ", " ++ print second ++ ")"
  binary : ∀ op left right loc,
    print (.binary op left right loc) =
      "(" ++ print left ++ " " ++ op.symbol ++ " " ++ print right ++ ")"
  unknown : print .unknown = "<invalid expr>"

theorem printsDirectly_plainText : PrintsDirectly plainText where
  number _ _ := rfl
  ident _ _ := rfl
  call1 f argument _ := by simp [plainText, callText, String.append_assoc]
  call2 f first second _ := by simp [plainText, callText, String.append_assoc]
  binary _ _ _ _ := rfl
  unknown := rfl

theorem PrintsDirectly.eq_plainText {print : Expr → String} (h : PrintsDirectly print) :
    print = plainText := by
  have hplain := printsDirectly_plainText
  funext e
  induction e with
  | number value loc => rw [h.number, hplain.number]
  | ident name loc => rw [h.ident, hplain.ident]
  | call1 f argument loc ih => rw [h.call1, hplain.call1, ih]
  | call2 f first second loc ihf ihs => rw [h.call2, hplain.call2, ihf, ihs]
  | binary op left right loc ihl ihr => rw [h.binary, hplain.binary, ihl, ihr]
  | unknown => rw [h.unknown, hplain.unknown]

/-- Printing along the left spine gives for every expression, of whatever nodes and however nested,
what direct recursion gives, and no other function satisfies the equations of that recursion. -/
theorem text_refines_recursion :
    (∀ e : Expr, e.text = e.plainText ∧
      e.text = closeLevels (e.spine.map (Prod.map id text)) e.leftmost.text) ∧
    ∀ print : Expr → String, PrintsDirectly print ↔ print = text := by
  refine ⟨fun e => ⟨e.text_eq_plainText, e.text_spine⟩, fun print => ⟨fun h => ?_, fun h => ?_⟩⟩
  · rw [text_funext, h.eq_plainText]
  · rw [h, text_funext]
    exact printsDirectly_plainText

example :
    (binary .sub (binary .add (ident "a" none) (binary .mul (ident "b" none) unknown none) none)
      (call1 .abs (ident "c" none) none) none).text = "((a + (b * <invalid expr>)) - abs(c))" := by
  cbv

end Expr
end ArithScript
