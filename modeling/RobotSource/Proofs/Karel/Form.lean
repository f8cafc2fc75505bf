import RobotSource.Karel.Grammar.Expression
/-!
# The form of expressions that have been read

Printing puts no parentheses, so a tree can be read back only if its operators stand as tightly as
the grammar takes them. `Expr.rank` says how loosely a tree hangs together, and `Expr.Formed` that no
operand is looser than its operator allows and that every leaf is spelled as the grammar spells it.

`Expr.unplaced` forgets the places of a tree. What is printed does not depend on them.
-/

namespace RobotSource.Karel

open Parsing Text

/-! ## Expressions without their places -/

/-- The span that stands for all others. -/
def nowhere : Span := ⟨.first, .first⟩

namespace Expr

mutual

/-- The expression without its places. -/
def unplaced : Expr → Expr
  | .number _ text => .number nowhere text
  | .string _ content => .string nowhere content
  | .boolean _ value => .boolean nowhere value
  | .identifier _ name => .identifier nowhere name
  | .system _ text => .system nowhere text
  | .programVariable _ program name => .programVariable nowhere program name
  | .index _ base indices => .index nowhere base.unplaced (unplacedAll indices)
  | .field _ base name => .field nowhere base.unplaced name
  | .call _ callee arguments => .call nowhere callee.unplaced (unplacedAll arguments)
  | .unary _ op operand => .unary nowhere op operand.unplaced
  | .binary _ op left right => .binary nowhere op left.unplaced right.unplaced
  | .paren _ inner => .paren nowhere inner.unplaced

/-- The expressions without their places. -/
def unplacedAll : List Expr → List Expr
  | [] => []
  | e :: es => e.unplaced :: unplacedAll es

end

mutual

/-- What is printed does not depend on the places. -/
theorem printed_unplaced : ∀ e : Expr, e.unplaced.printed = e.printed
  | .number _ _ | .string _ _ | .boolean _ true | .boolean _ false | .identifier _ _ | .system _ _
  | .programVariable _ _ _ => by simp only [unplaced, printed]
  | .index _ base indices => by
    simp only [unplaced, printed, printed_unplaced base, printedList_unplacedAll indices]
  | .field _ base _ => by simp only [unplaced, printed, printed_unplaced base]
  | .call _ callee arguments => by
    simp only [unplaced, printed, printed_unplaced callee, printedList_unplacedAll arguments]
  | .unary _ _ operand => by simp only [unplaced, printed, printed_unplaced operand]
  | .binary _ _ left right => by
    simp only [unplaced, printed, printed_unplaced left, printed_unplaced right]
  | .paren _ inner => by simp only [unplaced, printed, printed_unplaced inner]

theorem printedList_unplacedAll : ∀ es : List Expr, printedList (unplacedAll es) = printedList es
  | [] => by simp only [unplacedAll]
  | [e] => by simp only [unplacedAll, printedList, printed_unplaced e]
  | e :: e' :: es => by
    have htail := printedList_unplacedAll (e' :: es)
    simp only [unplacedAll] at htail
    simp only [unplacedAll, printedList, printed_unplaced e, htail]

end

/-- Expressions that differ in their places only are printed alike. -/
theorem text_eq_of_unplaced_eq {e e' : Expr} (h : e'.unplaced = e.unplaced) : e'.text = e.text := by
  rw [text, text, ← printed_unplaced e', h, printed_unplaced]

/-! ## Field selections on numbers -/

/-- Whether the expression is a number literal. -/
def isNumber : Expr → Bool
  | .number _ _ => true
  | _ => false

mutual

/-- Whether a field is selected directly from a number literal somewhere. -/
def selectsFromNumber : Expr → Bool
  | .index _ base indices => base.selectsFromNumber || anySelectsFromNumber indices
  | .field _ base _ => base.isNumber || base.selectsFromNumber
  | .call _ callee arguments => callee.selectsFromNumber || anySelectsFromNumber arguments
  | .unary _ _ operand => operand.selectsFromNumber
  | .binary _ _ left right => left.selectsFromNumber || right.selectsFromNumber
  | .paren _ inner => inner.selectsFromNumber
  | _ => false

/-- Whether that is so in one of several expressions. -/
def anySelectsFromNumber : List Expr → Bool
  | [] => false
  | e :: es => e.selectsFromNumber || anySelectsFromNumber es

end

theorem selectsFromNumber_of_mem {e : Expr} {es : List Expr}
    (h : anySelectsFromNumber es = false) (he : e ∈ es) : e.selectsFromNumber = false := by
  induction es with
  | nil => cases he
  | cons e' es ih =>
    rw [anySelectsFromNumber, Bool.or_eq_false_iff] at h
    rcases List.mem_cons.1 he with rfl | he
    · exact h.1
    · exact ih h.2 he

end Expr

/-! ## Leaves -/

/-- Digits, at least one. -/
def Digits (u : List Char) : Prop := u ≠ [] ∧ ∀ x ∈ u, x.isDigit = true

/-- The part of a number before its exponent. -/
inductive Mantissa : List Char → Prop
  | whole {d : List Char} (hd : Digits d) : Mantissa d
  | mixed {d f : List Char} (hd : Digits d) (hf : ∀ x ∈ f, x.isDigit = true) :
      Mantissa (d ++ '.' :: f)
  | fraction {f : List Char} (hf : Digits f) : Mantissa ('.' :: f)

/-- The exponent of a number, or nothing. -/
inductive Exponent : List Char → Prop
  | none : Exponent []
  | unsigned {x : Char} {d : List Char} (hx : x = 'e' ∨ x = 'E') (hd : Digits d) : Exponent (x :: d)
  | signed {x s : Char} {d : List Char} (hx : x = 'e' ∨ x = 'E') (hs : s = '+' ∨ s = '-')
      (hd : Digits d) : Exponent (x :: s :: d)

/-- The spelling of a number. -/
def Numeral (u : List Char) : Prop := ∃ m x, u = m ++ x ∧ Mantissa m ∧ Exponent x

/-- The spelling of a name. -/
structure Named (u : List Char) : Prop where
  start : u.head?.any isNameStart = true
  chars : ∀ x ∈ u, isNameChar x = true

/-- The words that are truth values. -/
def truthWords : List String := ["TRUE", "FALSE", "ON", "OFF"]

/-! ## Form -/

/-- How loosely an operator joins its operands. -/
def opRank : BinaryOp → Nat
  | .multiply | .divide | .integerDivide | .modulo | .and => 2
  | .add | .subtract | .or => 4
  | .equal | .notEqual | .less | .lessEqual | .greater | .greaterEqual => 5

namespace Expr

/-- How loosely an expression hangs together: not at all, by negations, as a product, by a sign, as a
sum, or by a relation. -/
def rank : Expr → Nat
  | .unary _ .not _ => 1
  | .unary _ _ _ => 3
  | .binary _ op _ _ => opRank op
  | _ => 0

/-- The expression hangs together as the grammar wants it, and its leaves are spelled so. -/
inductive Formed : Expr → Prop
  | number {span : Span} {text : String} (h : Numeral text.toList) : Formed (.number span text)
  | string {span : Span} {content : String} (h : ∀ x ∈ content.toList, x ≠ '\'' ∧ x ≠ '\n') :
      Formed (.string span content)
  | boolean {span : Span} {value : Bool} : Formed (.boolean span value)
  | identifier {span : Span} {name : String} (h : Named name.toList)
      (hreserved : Grammar.isReserved name = false)
      (htruth : ∀ w ∈ truthWords, sameIgnoringCase name w = false) : Formed (.identifier span name)
  | system {span : Span} {text : String} {u : List Char} (htext : text.toList = '$' :: u)
      (h : Named u) : Formed (.system span text)
  | programVariable {span : Span} {program name : String} (hprogram : Named program.toList)
      (hname : Named name.toList) : Formed (.programVariable span program name)
  | index {span : Span} {base : Expr} {indices : List Expr} (hbase : Formed base)
      (hrank : base.rank = 0) (hne : indices ≠ []) (h : ∀ i ∈ indices, Formed i) :
      Formed (.index span base indices)
  | field {span : Span} {base : Expr} {name : String} (hbase : Formed base) (hrank : base.rank = 0)
      (h : Named name.toList ∧ Grammar.isReserved name = false ∨
        ∃ u, name.toList = '$' :: u ∧ Named u) :
      Formed (.field span base name)
  | call {span : Span} {callee : Expr} {arguments : List Expr} (hcallee : Formed callee)
      (hrank : callee.rank = 0) (h : ∀ i ∈ arguments, Formed i) :
      Formed (.call span callee arguments)
  | not {span : Span} {operand : Expr} (h : Formed operand) (hrank : operand.rank ≤ 1) :
      Formed (.unary span .not operand)
  | sign {span : Span} {op : UnaryOp} {operand : Expr} (hop : op ≠ .not) (h : Formed operand)
      (hrank : operand.rank ≤ 2) : Formed (.unary span op operand)
  /-- on the left another operator of the same rank may stand, unless it is a relation -/
  | binary {span : Span} {op : BinaryOp} {left right : Expr} (hleft : Formed left)
      (hright : Formed right) (hleftRank : left.rank ≤ min (opRank op) 4)
      (hrightRank : right.rank < opRank op) : Formed (.binary span op left right)
  | paren {span : Span} {inner : Expr} (h : Formed inner) : Formed (.paren span inner)

end Expr

/-! ## How printed expressions begin -/

/-- The characters with which an operand begins. -/
def isOpening (x : Char) : Bool :=
  x.isDigit || isNameStart x || x == '.' || x == '\'' || x == '$' || x == '[' || x == '('

/-- The text begins with an operand. -/
def Opens (u : List Char) : Prop := ∃ x s, u = x :: s ∧ isOpening x = true

/-- The text begins with an operand, with or without a sign before it. -/
def OpensSigned (u : List Char) : Prop :=
  Opens u ∨ ∃ x s, u = x :: s ∧ (x = '-' ∨ x = '+') ∧ Opens s

theorem Opens.append {u v : List Char} (h : Opens u) : Opens (u ++ v) := by
  obtain ⟨x, s, rfl, hx⟩ := h
  exact ⟨x, s ++ v, rfl, hx⟩

theorem OpensSigned.append {u v : List Char} (h : OpensSigned u) : OpensSigned (u ++ v) := by
  rcases h with h | ⟨x, s, rfl, hx, hs⟩
  · exact .inl h.append
  · exact .inr ⟨x, s ++ v, rfl, hx, hs.append⟩

/-- A numeral begins with a digit or a point. -/
theorem Numeral.exists_cons {u : List Char} (h : Numeral u) :
    ∃ x s, u = x :: s ∧ (x.isDigit = true ∨ x = '.') := by
  obtain ⟨m, y, rfl, hm, -⟩ := h
  have hdigits {d v : List Char} (hd : Digits d) :
      ∃ x s, d ++ v = x :: s ∧ (x.isDigit = true ∨ x = '.') := by
    obtain ⟨x, s, rfl⟩ := List.exists_cons_of_ne_nil hd.1
    exact ⟨x, s ++ v, rfl, .inl (hd.2 x List.mem_cons_self)⟩
  cases hm with
  | whole hd => exact hdigits hd
  | mixed hd _ =>
    rw [List.append_assoc]
    exact hdigits hd
  | fraction _ => exact ⟨_, _, rfl, .inr rfl⟩

theorem Numeral.opens {u : List Char} (h : Numeral u) : Opens u := by
  obtain ⟨x, s, rfl, hx | rfl⟩ := h.exists_cons
  · exact ⟨x, s, rfl, by simp [isOpening, hx]⟩
  · exact ⟨_, _, rfl, rfl⟩

theorem Named.exists_cons {u : List Char} (h : Named u) :
    ∃ x s, u = x :: s ∧ isNameStart x := by
  cases u with
  | nil => simpa using h.start
  | cons x s => exact ⟨x, s, rfl, by simpa using h.start⟩

theorem Named.opens {u : List Char} (h : Named u) : Opens u := by
  obtain ⟨x, s, rfl, hx⟩ := h.exists_cons
  exact ⟨x, s, rfl, by simp [isOpening, hx]⟩

namespace Expr

variable {e : Expr}

/-- Whatever is no looser than a product begins with an operand. -/
theorem Formed.opens (h : Formed e) (hrank : e.rank ≤ 2) : Opens e.printed := by
  induction h with
  | number h =>
    rw [printed]
    exact h.opens
  | string _ => exact ⟨_, _, rfl, rfl⟩
  | @boolean _ value => cases value <;> exact ⟨_, _, rfl, rfl⟩
  | identifier h _ _ =>
    rw [printed]
    exact h.opens
  | system htext _ =>
    rw [printed, htext]
    exact ⟨_, _, rfl, rfl⟩
  | programVariable _ _ => exact ⟨_, _, rfl, rfl⟩
  | index _ hbase _ _ ih _ =>
    rw [printed, List.append_assoc]
    exact (ih (by omega)).append
  | field _ hbase _ ih =>
    rw [printed]
    exact (ih (by omega)).append
  | call _ hbase _ ih _ =>
    rw [printed, List.append_assoc]
    exact (ih (by omega)).append
  | not _ _ _ => exact ⟨_, _, rfl, rfl⟩
  | @sign _ op _ hop _ _ _ =>
    cases op with
    | not => exact absurd rfl hop
    | negate => simp [rank] at hrank
    | plus => simp [rank] at hrank
  | binary _ _ hleft _ ih _ =>
    rw [printed, List.append_assoc]
    refine (ih ?_).append
    simp only [rank] at hrank
    omega
  | paren _ _ => exact ⟨_, _, rfl, rfl⟩

theorem Formed.opensSigned (h : Formed e) : OpensSigned e.printed := by
  by_cases hrank : e.rank ≤ 2
  · exact .inl (h.opens hrank)
  induction h with
  | @sign _ op _ hop h hoperand _ =>
    cases op with
    | not => exact absurd rfl hop
    | negate => exact .inr ⟨_, _, rfl, .inl rfl, h.opens hoperand⟩
    | plus => exact .inr ⟨_, _, rfl, .inr rfl, h.opens hoperand⟩
  | @binary _ _ left _ hl _ _ _ ih _ =>
    rw [printed, List.append_assoc]
    by_cases hleft : left.rank ≤ 2
    · exact .inl (hl.opens hleft).append
    · exact (ih hleft).append
  | not _ _ _ => simp [rank] at hrank
  | _ => simp [rank] at hrank

end Expr

end RobotSource.Karel
