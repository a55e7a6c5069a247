/-
# Conversions between values

What `String(value)`, `Number(value)` and a condition make of a JSON value.
`undefined`, which a missing member reads as, is `none`.  A decimal literal is
rounded exactly (`ofDecimal`), also beyond the twentieth digit, where an
engine may round the literal first.
-/
import SingularityFlow.Lib.JsonValue

namespace Ecma

/-! ## Numbers -/

/-- The value of the digits of a radix, when there are any and all are digits. -/
def radixValue (digit? : UInt16 → Option Nat) (radix : Nat) : Text → Option Nat
  | [] => none
  | ds => ds.foldl (fun acc u => acc.bind fun n => (digit? u).map fun d => radix * n + d) (some 0)

/-- A digit below a radix of at most sixteen. -/
def radixDigit? (radix : Nat) (u : UInt16) : Option Nat :=
  let d? : Option Nat :=
    if isDigit u then some (u.toNat - 0x30)
    else if 0x61 ≤ u.toNat ∧ u.toNat ≤ 0x66 then some (u.toNat - 0x57)
    else if 0x41 ≤ u.toNat ∧ u.toNat ≤ 0x46 then some (u.toNat - 0x37)
    else none
  d?.filter (· < radix)

/-- The value of an exponent part that takes up the whole text. -/
def exponentValue : Text → Option Int
  | [] => some 0
  | e :: t =>
      if e = 0x65 ∨ e = 0x45 then
        match t with
        | 0x2D :: ds => (radixValue (radixDigit? 10) 10 ds).map fun n => -(n : Int)
        | 0x2B :: ds => (radixValue (radixDigit? 10) 10 ds).map fun n => (n : Int)
        | ds => (radixValue (radixDigit? 10) 10 ds).map fun n => (n : Int)
      else none

/-- StrUnsignedDecimalLiteral. -/
def unsignedDecimal (negative : Bool) (t : Text) : Option Number :=
  if t = js "Infinity" then some (.infinity negative)
  else
    let int := t.takeWhile isDigit
    match t.dropWhile isDigit with
    | 0x2E :: rest =>
        let frac := rest.takeWhile isDigit
        if int = [] ∧ frac = [] then none
        else (exponentValue (rest.dropWhile isDigit)).map fun e =>
          ofDecimal negative (digitsValue (int ++ frac)) (e - frac.length)
    | rest =>
        if int = [] then none
        else (exponentValue rest).map fun e => ofDecimal negative (digitsValue int) e

/-- `Number(text)`. -/
def stringToNumber (text : Text) : Number :=
  let number? : Option Number :=
    match trim text with
    | [] => some (.ofNat 0)
    | 0x2D :: t => unsignedDecimal true t
    | 0x2B :: t => unsignedDecimal false t
    | 0x30 :: u :: t =>
        if u = 0x78 ∨ u = 0x58 then (radixValue (radixDigit? 16) 16 t).map .ofNat
        else if u = 0x6F ∨ u = 0x4F then (radixValue (radixDigit? 8) 8 t).map .ofNat
        else if u = 0x62 ∨ u = 0x42 then (radixValue (radixDigit? 2) 2 t).map .ofNat
        else unsignedDecimal false (0x30 :: u :: t)
    | t => unsignedDecimal false t
  number?.getD .nan

/-- The value of a number that `Number.isSafeInteger` accepts and that is not
below zero. -/
def Number.safeSize? (x : Number) : Option Nat :=
  match x.integer? with
  | some (.ofNat n) => if n < 2 ^ 53 then some n else none
  | _ => none

theorem integer?_of_safeSize? {x : Number} {n : Nat} (h : x.safeSize? = some n) :
    x.integer? = some (n : Int) := by
  unfold Number.safeSize? at h
  split at h
  · next k hk =>
      split at h
      · obtain rfl := Option.some.inj h
        exact hk
      · cases h
  · cases h

theorem integer?_negative {m : Nat} {e k : Int} {h : Canonical m e}
    (hk : (Number.finite true m e h).integer? = some k) : k ≤ 0 := by
  have hneg : ∀ n : Nat, (-1 : Int) * n ≤ 0 := fun n => by omega
  unfold Number.integer? at hk
  dsimp only at hk
  split at hk
  · obtain rfl := Option.some.inj hk
    exact hneg _
  · split at hk
    · obtain rfl := Option.some.inj hk
      exact hneg _
    · cases hk

/-! ## Values -/

namespace Value

mutual

/-- `String(value)`. -/
def toText : Value → Text
  | .null => js "null"
  | .bool b => if b then js "true" else js "false"
  | .num x => x.text
  | .str t => t
  | .arr items => joinItems items
  | .obj _ => js "[object Object]"

/-- `items.join(',')`, in which null is empty. -/
def joinItems : List Value → Text
  | [] => []
  | [.null] => []
  | [v] => v.toText
  | .null :: rest => js "," ++ joinItems rest
  | v :: rest => v.toText ++ js "," ++ joinItems rest

end

/-- `Number(value)`. -/
def toNumber : Value → Number
  | .null => .ofNat 0
  | .bool b => .ofNat b.toNat
  | .num x => x
  | v => stringToNumber v.toText

/-- The value as a condition. -/
def truthy : Value → Bool
  | .null => false
  | .bool b => b
  | .num x => x ≠ .nan && x.unsignedZero ≠ .ofNat 0
  | .str t => t ≠ []
  | .arr _ | .obj _ => true

/-- An own member of an object; the names asked for are no members of other values. -/
def member? (name : Text) : Value → Option Value
  | .obj members => lookup name members
  | _ => none

end Value

/-- `${value}`. -/
def templateText (v : Option Value) : Text := (v.map Value.toText).getD (js "undefined")

/-- An element of `join`: nothing for null and undefined. -/
def joinedText : Option Value → Text
  | none | some .null => []
  | some v => v.toText

/-- `value ?? fallback`. -/
def orElse (v : Option Value) (fallback : Value) : Value :=
  match v with
  | none | some .null => fallback
  | some v => v

example : [js "12", js " 0x1F\n", js "1e3", js "2.50e1", js "-0"].map stringToNumber
    = [.ofNat 12, .ofNat 31, .ofNat 1000, .ofNat 25, .negativeZero] := by decide +kernel

example : [js "1 2", js "0x", js ".", js "-0x1", js "é"].map stringToNumber
    = List.replicate 5 .nan := by decide +kernel

end Ecma
