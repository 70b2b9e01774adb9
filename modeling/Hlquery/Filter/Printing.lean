import Hlquery.Sql.ReadBack

/-!
# Printed expressions

A tree of `&&`, `||`, `!` and conditions is printed with parentheses around every operand. **The
parser reads the tree back** (`parse_print`), so that the text keeps the documents that the tree
keeps. A condition needs an explicit operator and a value that the scan for the end of the value
does not cut: no closing parenthesis, no connector, nothing for `Trim` at its ends.
-/

set_option autoImplicit false

namespace Hlquery.Filter

open Bytes Hlquery.Parser

def explicitOps : List (Bytes × FilterOp) := likeOps ++ twoCharOps ++ oneCharOps

def FilterOp.text (op : FilterOp) : Bytes :=
  ((explicitOps.find? fun entry => entry.2 = op).map Prod.fst).getD []

def FilterCondition.print (c : FilterCondition) : Bytes :=
  c.field ++ chr ':' :: (c.op.text ++ c.value)

def grouped (t : Bytes) : Bytes := lit "(" ++ t ++ lit ")"

namespace FilterExpressionNode

def print : FilterExpressionNode → Bytes
  | condition c => c.print
  | not child => lit "!" ++ grouped child.print
  | and left right => grouped left.print ++ lit "&&" ++ grouped right.print
  | or left right => grouped left.print ++ lit "||" ++ grouped right.print

def conditions : FilterExpressionNode → List FilterCondition
  | condition c => [c]
  | not child => child.conditions
  | and left right | or left right => left.conditions ++ right.conditions

end FilterExpressionNode

/-- What a condition has to be to stand in a text without quotes. -/
structure FilterCondition.Printable (c : FilterCondition) : Prop where
  field : Sql.PlainField c.field
  op : c.op ∈ explicitOps.map Prod.snd
  head : c.value.head?.any isAlnum = true
  last : c.value.getLast?.any isSpace = false
  noClose : chr ')' ∉ c.value
  noConnector : ∀ v, v <:+ c.value → startsConnector v = false

theorem alnum_start {b : UInt8} (h : isAlnum b = true) :
    isSpace b = false ∧ isTrimmed b = false ∧ (61 : UInt8) ≠ b := by
  revert b
  decide +kernel

/-- The operator is read off its text, whatever letter or digit follows. -/
theorem isTest_text {op : FilterOp} (hop : op ∈ explicitOps.map Prod.snd) {b : UInt8}
    (hb : (61 : UInt8) ≠ b) (v : Bytes) : Sql.IsTest (op.text ++ b :: v) op (b :: v) := by
  have hops : op ∈ [FilterOp.notILike, .notLike, .iLike, .like, .ne, .ge, .le, .colonEq, .gt, .lt,
    .eq] := hop
  simp only [List.mem_cons, List.not_mem_nil, or_false] at hops
  rcases hops with rfl | rfl | rfl | rfl | rfl | rfl | rfl | rfl | rfl | rfl | rfl <;>
    constructor <;> simp [FilterOp.text, explicitOps, lit, skipWhitespace, isSpace, rangeOpening,
      chr, matchFirst, nullOps, startsWith, parseOperator, likeOps, twoCharOps, oneCharOps,
      List.isPrefixOf, hb]

/-- **A printed condition is read back.** -/
theorem FilterCondition.Printable.parse_condition {c : FilterCondition} (h : c.Printable) :
    parse c.print = some (.condition c) := by
  obtain ⟨field, op, value⟩ := c
  cases value with
  | nil => cases h.head
  | cons b v =>
    obtain ⟨hspace, htrimmed, heq⟩ := alnum_start (by simpa using h.head)
    have htest := isTest_text h.op heq v
    have hwhole : takeUntil endsValue (b :: v) = (b :: v, []) := by
      refine takeUntil_eq_self fun u hne hu => ?_
      have hclose : u.head? ≠ some (chr ')') := fun hhead =>
        h.noClose (hu.subset (List.mem_of_head? hhead))
      simp [endsValue, hclose, h.noConnector u hu]
    have hlast : Sql.blankEnd (b :: v) = false := by
      have hspaced := h.last
      unfold Sql.blankEnd
      cases hx : (b :: v).getLast? with
      | none => rfl
      | some x =>
        rw [hx, Option.any_some] at hspaced
        exact Bool.eq_false_iff.mpr fun hblank =>
          absurd (Sql.isSpace_of_isTrimmed hblank) (by simp [hspaced])
    have htrim : trim (b :: v) = b :: v :=
      Sql.trim_eq_self_iff.mpr ⟨by simpa using htrimmed, hlast⟩
    have hstart : valueStart (op.text ++ b :: v) = b :: v := by
      unfold valueStart
      rw [htest.operator]
      exact skipWhitespace_cons hspace v
    refine (Sql.parse_field_iff rfl).mpr ⟨h.field, [], ?_, rfl⟩
    rw [htest.parseTest_eq, parseComparison_eq_some, hstart, hwhole, htrim, htest.operator]
    exact ⟨by simp, rfl, rfl⟩

/-! ## Trees -/

variable {t u : Bytes} {node left right : FilterExpressionNode} {k : LogicalConnector}

theorem Reads.disjunction_of_primary (h : Reads .primary t node) : Reads .disjunction t node :=
  Reads.chain (k := .or) (Reads.chain (k := .and) h).reads |>.reads

theorem Reads.operand_of_primary (h : Reads .primary t node) : Reads k.operand t node := by
  cases k with
  | and => exact h
  | or => exact (Reads.chain (k := .and) h).reads

theorem Reads.disjunction_of_level (h : Reads k.level t node) : Reads .disjunction t node := by
  cases k with
  | and => exact (Reads.chain (k := .or) h).reads
  | or => exact h

theorem Reads.combine (hl : Reads .disjunction t left) (hr : Reads .disjunction u right) :
    Reads .disjunction (grouped t ++ k.token ++ grouped u) (k.combine left right) := by
  have hfirst : ReadsChain k (grouped t) left := hl.group.operand_of_primary.chain
  exact (hfirst.snoc (Tight.group t) hr.group.operand_of_primary).reads.disjunction_of_level

theorem reads_print (h : ∀ c ∈ node.conditions, c.Printable) :
    Reads .disjunction node.print node := by
  induction node with
  | condition c =>
    have hc : c.Printable := h c (by simp [FilterExpressionNode.conditions])
    exact (Reads.of_condition hc.parse_condition).disjunction_of_primary
  | not child ih => exact (ih h).group.not.disjunction_of_primary
  | and left right hl hr =>
    have hboth := List.forall_mem_append.mp h
    exact (hl hboth.1).combine (k := .and) (hr hboth.2)
  | or left right hl hr =>
    have hboth := List.forall_mem_append.mp h
    exact (hl hboth.1).combine (k := .or) (hr hboth.2)

/-- **A printed tree is parsed to one that keeps the same documents.** -/
theorem parse_print (tree : FilterExpressionNode) (h : ∀ c ∈ tree.conditions, c.Printable) :
    ∃ tree', parse tree.print = some tree' ∧ ∀ (rt : FilterRuntime) (document : Document),
      evaluateExpression rt document tree' = evaluateExpression rt document tree :=
  ⟨tree, (reads_print h).parse, fun _ _ => rfl⟩

def cheapOrNotRed : FilterExpressionNode :=
  .or (.condition ⟨lit "price", .le, lit "10"⟩) (.not (.condition ⟨lit "tag", .eq, lit "red & blue"⟩))

theorem parse_print_cheapOrNotRed : ∃ tree', parse cheapOrNotRed.print = some tree' ∧
      ∀ (rt : FilterRuntime) (document : Document), evaluateExpression rt document tree' =
        evaluateExpression rt document cheapOrNotRed := by
  refine parse_print cheapOrNotRed fun c hc => ?_
  have hcut : ∀ value : Bytes, (value.tails.all fun v => !startsConnector v) = true →
      ∀ v, v <:+ value → startsConnector v = false := by
    simp
  simp only [cheapOrNotRed, FilterExpressionNode.conditions, List.mem_append,
    List.mem_singleton] at hc
  rcases hc with rfl | rfl
  · exact ⟨⟨by decide, by decide +kernel, by decide⟩, by decide, by decide, by decide, by decide,
      hcut _ (by decide)⟩
  · exact ⟨⟨by decide, by decide +kernel, by decide⟩, by decide, by decide, by decide, by decide,
      hcut _ (by decide)⟩

end Hlquery.Filter
