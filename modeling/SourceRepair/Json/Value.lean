/-!
# JSON values

Objects keep their members in the order in which they were written.
-/

namespace SourceRepair.Json

/-- A number is an integer of 64 bits, signed or not, or a double. -/
inductive Number where
  | int (n : Int)
  | float (x : Float)
deriving DecidableEq, Inhabited

inductive Value where
  | null
  | bool (b : Bool)
  | number (n : Number)
  | string (s : String)
  | array (items : List Value)
  | object (members : List (String × Value))
deriving Inhabited

/-- The members of an object. -/
abbrev Members := List (String × Value)

namespace Members

/-- The value of a key. -/
def get? (ms : Members) (key : String) : Option Value := ms.lookup key

/-- The key has a value. -/
def has (ms : Members) (key : String) : Bool := (get? ms key).isSome

/-- Gives a key a value: at the place where the key stands, or else at the end. -/
def set : Members → String → Value → Members
  | [], key, value => [(key, value)]
  | (k, v) :: rest, key, value =>
    if k == key then (key, value) :: rest else (k, v) :: set rest key value

/-- Later values of a key replace earlier ones at the place of the first. -/
def collapse (ms : Members) : Members := ms.foldl (fun done (k, v) => set done k v) []

end Members

namespace Value

/-- A natural number as a value. -/
def nat (n : Nat) : Value := .number (.int n)

/-- A double as a value. -/
def float (x : Float) : Value := .number (.float x)

/-- The text, or `null` when there is none. -/
def ofOption {α : Type} (f : α → Value) : Option α → Value
  | some a => f a
  | none => .null

def members? : Value → Option Members
  | object ms => some ms
  | _ => none

def items? : Value → Option (List Value)
  | array vs => some vs
  | _ => none

def string? : Value → Option String
  | string s => some s
  | _ => none

/-- The value of a key of an object. -/
def get? (v : Value) (key : String) : Option Value := v.members?.bind (Members.get? · key)

mutual

/-- The value with one member for each key, at every depth. -/
def collapse : Value → Value
  | array items => array (collapseItems items)
  | object ms => object (collapseMembers ms).collapse
  | v => v

def collapseItems : List Value → List Value
  | [] => []
  | v :: vs => v.collapse :: collapseItems vs

def collapseMembers : List (String × Value) → Members
  | [] => []
  | (k, v) :: rest => (k, v.collapse) :: collapseMembers rest

end

end Value

end SourceRepair.Json
