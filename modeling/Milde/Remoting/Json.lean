/-
  Milde.Remoting.Json

  The data that a remote method returns, the JSON that stands for it, and what the code
  relies on in Newtonsoft.Json with `TypeNameHandling.All` (`Newtonsoft`).

  An object or a list is written with its type and read back as that type, its members at
  their declared types.  A boxed primitive is a bare scalar, so that its type is a guess
  from the token when the reader knows only `object`.
-/
import Mathlib.Algebra.Group.Int.Defs
import Milde.Common.Utf16

namespace Milde.Remoting

-- ============================================================================
-- Types
-- ============================================================================

/-- The fixed-width integer types. -/
inductive IntegerType where
  | sbyte
  | byte
  | int16
  | uint16
  | int32
  | uint32
  | int64
  | uint64
deriving DecidableEq, Repr

namespace IntegerType

def minValue : IntegerType → Int
  | sbyte => -2 ^ 7
  | int16 => -2 ^ 15
  | int32 => -2 ^ 31
  | int64 => -2 ^ 63
  | byte | uint16 | uint32 | uint64 => 0

def maxValue : IntegerType → Int
  | sbyte => 2 ^ 7 - 1
  | byte => 2 ^ 8 - 1
  | int16 => 2 ^ 15 - 1
  | uint16 => 2 ^ 16 - 1
  | int32 => 2 ^ 31 - 1
  | uint32 => 2 ^ 32 - 1
  | int64 => 2 ^ 63 - 1
  | uint64 => 2 ^ 64 - 1

def InRange (k : IntegerType) (i : Int) : Prop := k.minValue ≤ i ∧ i ≤ k.maxValue

instance (k : IntegerType) (i : Int) : Decidable (k.InRange i) :=
  inferInstanceAs (Decidable (_ ∧ _))

end IntegerType

/-- The types of results.  `list` is `List<T>` and the interfaces it is returned as. -/
inductive DataType where
  | boolean
  | integer (k : IntegerType)
  | double
  | string
  | dto (name : String)
  | list (element : DataType)
deriving DecidableEq, Repr

def DataType.isValueType : DataType → Bool
  | boolean | integer _ | double => true
  | string | dto _ | list _ => false

/-- The DTO classes: their serialized members, inherited ones included, and which class
    derives from which. -/
structure ClassTable where
  members : String → List (String × DataType)
  isAssignable : String → String → Bool
  distinct : ∀ d, ((members d).map Prod.fst).Nodup
  assignableSelf : ∀ d, isAssignable d d = true

-- ============================================================================
-- Values
-- ============================================================================

/-- A finite double by its bits.  `-0.0` equals `0.0` and is not kept apart from it. -/
structure FiniteDouble where
  bits : BitVec 64
  finite : bits.extractLsb' 52 11 ≠ 0x7FF#11
  notNegativeZero : bits ≠ 0x8000000000000000#64
deriving DecidableEq

inductive Double where
  | finite (d : FiniteDouble)
  | nan
  | infinity (negative : Bool)
deriving DecidableEq

def Double.isFinite : Double → Bool
  | finite _ => true
  | nan | infinity _ => false

/-- A value with its runtime type.  Members stand in the order of the class table;
    `bigInteger` and `dateTime` only come from the reader. -/
inductive Value where
  | null
  | boolean (b : Bool)
  | integer (k : IntegerType) (i : Int)
  | bigInteger (i : Int)
  | double (d : Double)
  | string (s : Text)
  | dateTime (s : Text)
  | dto (type : String) (members : List Value)
  | list (element : DataType) (items : List Value)

namespace Value

/-- The value is an instance of a class or type, whatever its members are. -/
def isInstance (classes : ClassTable) : Value → DataType → Bool
  | boolean _, .boolean => true
  | integer k _, .integer k' => k = k'
  | double _, .double => true
  | string _, .string => true
  | dto d _, .dto c => classes.isAssignable d c
  | list t _, .list t' => t = t'
  | _, _ => false

mutual

/-- The texts inside through UTF-8 and back. -/
def transcode : Value → Value
  | string s => string s.transcode
  | dto d members => dto d (transcodeAll members)
  | list t items => list t (transcodeAll items)
  | v => v

def transcodeAll : List Value → List Value
  | [] => []
  | v :: vs => v.transcode :: transcodeAll vs

end

mutual

/-- Every text inside is well formed. -/
def WellFormed : Value → Prop
  | string s => s.WellFormed
  | dto _ members => AllWellFormed members
  | list _ items => AllWellFormed items
  | _ => True

def AllWellFormed : List Value → Prop
  | [] => True
  | v :: vs => v.WellFormed ∧ AllWellFormed vs

end

theorem transcodeAll_eq_map (vs : List Value) : transcodeAll vs = vs.map transcode := by
  induction vs with
  | nil => rfl
  | cons v vs ih => rw [transcodeAll, List.map_cons, ih]

mutual

theorem transcode_eq_self_iff : ∀ v : Value, v.transcode = v ↔ v.WellFormed
  | null | boolean _ | integer _ _ | bigInteger _ | double _ | dateTime _ =>
      ⟨fun _ => trivial, fun _ => rfl⟩
  | string s => by
      rw [transcode, WellFormed, string.injEq]
      exact s.transcode_eq_self_iff
  | dto d members => by
      rw [transcode, WellFormed, dto.injEq, ← transcodeAll_eq_self_iff members]
      exact and_iff_right rfl
  | list t items => by
      rw [transcode, WellFormed, list.injEq, ← transcodeAll_eq_self_iff items]
      exact and_iff_right rfl

theorem transcodeAll_eq_self_iff :
    ∀ vs : List Value, transcodeAll vs = vs ↔ AllWellFormed vs
  | [] => ⟨fun _ => trivial, fun _ => rfl⟩
  | v :: vs => by
      rw [transcodeAll, AllWellFormed, List.cons_eq_cons, transcode_eq_self_iff v,
        transcodeAll_eq_self_iff vs]

end

end Value

/-- `v` is a value of the type: null where the type has it, the members of an object each
    of its declared type, the items of a list each of the element type. -/
inductive HasType (classes : ClassTable) : DataType → Value → Prop where
  | null {t : DataType} : t.isValueType = false → HasType classes t .null
  | boolean (b : Bool) : HasType classes .boolean (.boolean b)
  | integer {k : IntegerType} {i : Int} : k.InRange i → HasType classes (.integer k) (.integer k i)
  | double (d : Double) : HasType classes .double (.double d)
  | string (s : Text) : HasType classes .string (.string s)
  | dto {c d : String} {vs : List Value} : classes.isAssignable d c = true →
      (classes.members d).length = vs.length →
      (∀ p ∈ (classes.members d).zip vs, HasType classes p.1.2 p.2) →
      HasType classes (.dto c) (.dto d vs)
  | list {t : DataType} {vs : List Value} : (∀ v ∈ vs, HasType classes t v) →
      HasType classes (.list t) (.list t vs)

-- ============================================================================
-- JSON
-- ============================================================================

/-- A JSON value.  An object and an array carry the type that `$type` names. -/
inductive Json where
  | null
  | boolean (b : Bool)
  | integer (i : Int)
  | fraction (d : FiniteDouble)
  | string (s : Text)
  | object (type : String) (fields : List (String × Json))
  | array (element : DataType) (items : List Json)

namespace Json

mutual

/-- The document as bytes and read from them: `_encoding.GetBytes`, then
    `Encoding.UTF8.GetString`.  The names are identifiers and come through as they are. -/
def transcode : Json → Json
  | string s => string s.transcode
  | object type fields => object type (transcodeFields fields)
  | array t items => array t (transcodeItems items)
  | j => j

def transcodeFields : List (String × Json) → List (String × Json)
  | [] => []
  | (name, j) :: fields => (name, j.transcode) :: transcodeFields fields

def transcodeItems : List Json → List Json
  | [] => []
  | j :: items => j.transcode :: transcodeItems items

end

theorem transcodeFields_eq_map (fields : List (String × Json)) :
    transcodeFields fields = fields.map fun f => (f.1, f.2.transcode) := by
  induction fields with
  | nil => rfl
  | cons f fields ih => rw [transcodeFields, List.map_cons, ih]

theorem transcodeItems_eq_map (items : List Json) : transcodeItems items = items.map transcode := by
  induction items with
  | nil => rfl
  | cons j items ih => rw [transcodeItems, List.map_cons, ih]

end Json

/-- How a double that is no number is written (`FloatFormatHandling.String`). -/
def Double.symbol : Double → Text
  | infinity false => Text.ofString "Infinity"
  | infinity true => Text.ofString "-Infinity"
  | _ => Text.ofString "NaN"

/-- What the code relies on in Newtonsoft.Json with `TypeNameHandling.All`: how it writes a
    value, how it reads JSON at a declared type, and how it reads it as `object`.  `isDate`
    is its test for ISO dates.  A reader that throws gives `none`. -/
structure Newtonsoft (classes : ClassTable) where
  isDate : Text → Bool
  write : Value → Json
  readAs : DataType → Json → Option Value
  readObject : Json → Option Value
  write_null : write .null = .null
  write_boolean : ∀ b, write (.boolean b) = .boolean b
  write_integer : ∀ k i, write (.integer k i) = .integer i
  write_finite : ∀ d, write (.double (.finite d)) = .fraction d
  write_notFinite : ∀ d : Double, d.isFinite = false → write (.double d) = .string d.symbol
  write_string : ∀ s, write (.string s) = .string s
  write_dto : ∀ d vs, write (.dto d vs) =
    .object d (((classes.members d).zip vs).map fun p => (p.1.1, write p.2))
  write_list : ∀ t vs, write (.list t vs) = .array t (vs.map write)
  readAs_null : ∀ t, t.isValueType = false → readAs t .null = some .null
  readAs_boolean : ∀ b, readAs .boolean (.boolean b) = some (.boolean b)
  readAs_integer : ∀ k i, k.InRange i → readAs (.integer k) (.integer i) = some (.integer k i)
  readAs_fraction : ∀ d, readAs .double (.fraction d) = some (.double (.finite d))
  readAs_symbol : ∀ d : Double, d.isFinite = false →
    readAs .double (.string d.symbol) = some (.double d)
  readAs_string : ∀ s, readAs .string (.string s) = some (.string s)
  /-- The rows are a member with its type, the JSON of its field and the value read. -/
  readAs_object : ∀ c d (rows : List ((String × DataType) × Json × Value)),
    classes.isAssignable d c = true → rows.map Prod.fst = classes.members d →
    (∀ row ∈ rows, readAs row.1.2 row.2.1 = some row.2.2) →
    readAs (.dto c) (.object d (rows.map fun row => (row.1.1, row.2.1))) =
      some (.dto d (rows.map fun row => row.2.2))
  /-- The rows are the JSON of an item and the value read. -/
  readAs_array : ∀ t (rows : List (Json × Value)),
    (∀ row ∈ rows, readAs t row.1 = some row.2) →
    readAs (.list t) (.array t (rows.map Prod.fst)) = some (.list t (rows.map Prod.snd))
  readObject_boolean : ∀ b, readObject (.boolean b) = some (.boolean b)
  readObject_int64 : ∀ i, IntegerType.int64.InRange i →
    readObject (.integer i) = some (.integer .int64 i)
  readObject_bigInteger : ∀ i, ¬ IntegerType.int64.InRange i →
    readObject (.integer i) = some (.bigInteger i)
  readObject_fraction : ∀ d, readObject (.fraction d) = some (.double (.finite d))
  readObject_string : ∀ s, readObject (.string s) =
    some (if isDate s then .dateTime s else .string s)
  readObject_object : ∀ d fields, readObject (.object d fields) = readAs (.dto d) (.object d fields)
  readObject_array : ∀ t items, readObject (.array t items) = readAs (.list t) (.array t items)

-- ============================================================================
-- A reader and a writer
-- ============================================================================

namespace InOrder

mutual

def write (classes : ClassTable) : Value → Json
  | .null => .null
  | .boolean b => .boolean b
  | .integer _ i | .bigInteger i => .integer i
  | .double (.finite d) => .fraction d
  | .double d => .string d.symbol
  | .string s | .dateTime s => .string s
  | .dto d members => .object d (writeMembers classes (classes.members d) members)
  | .list t items => .array t (writeItems classes items)

def writeMembers (classes : ClassTable) :
    List (String × DataType) → List Value → List (String × Json)
  | m :: ms, v :: vs => (m.1, write classes v) :: writeMembers classes ms vs
  | _, _ => []

def writeItems (classes : ClassTable) : List Value → List Json
  | [] => []
  | v :: vs => write classes v :: writeItems classes vs

end

theorem writeMembers_eq_map (classes : ClassTable) (ms : List (String × DataType))
    (vs : List Value) :
    writeMembers classes ms vs = (ms.zip vs).map fun p => (p.1.1, write classes p.2) := by
  induction ms generalizing vs with
  | nil => cases vs <;> rfl
  | cons m ms ih =>
      cases vs with
      | nil => rfl
      | cons v vs => rw [writeMembers, List.zip_cons_cons, List.map_cons, ih]

theorem writeItems_eq_map (classes : ClassTable) (vs : List Value) :
    writeItems classes vs = vs.map (write classes) := by
  induction vs with
  | nil => rfl
  | cons v vs ih => rw [writeItems, List.map_cons, ih]

def readSymbol (s : Text) : Option Double :=
  [Double.nan, .infinity false, .infinity true].find? fun d => d.symbol = s

mutual

/-- Reads the fields of an object in the order of the class table, as `write` leaves them. -/
def readAs (classes : ClassTable) : DataType → Json → Option Value
  | t, .null => if t.isValueType then none else some .null
  | .boolean, .boolean b => some (.boolean b)
  | .integer k, .integer i => if k.InRange i then some (.integer k i) else none
  | .double, .fraction d => some (.double (.finite d))
  | .double, .string s => (readSymbol s).map .double
  | .string, .string s => some (.string s)
  | .dto c, .object d fields =>
      if classes.isAssignable d c then (readMembers classes (classes.members d) fields).map (.dto d)
      else none
  | .list t, .array t' items =>
      if t = t' then (readItems classes t items).map (.list t) else none
  | _, _ => none

def readMembers (classes : ClassTable) :
    List (String × DataType) → List (String × Json) → Option (List Value)
  | [], [] => some []
  | m :: ms, (name, j) :: fields =>
      if m.1 = name then
        match readAs classes m.2 j, readMembers classes ms fields with
        | some v, some vs => some (v :: vs)
        | _, _ => none
      else none
  | _, _ => none

def readItems (classes : ClassTable) (t : DataType) : List Json → Option (List Value)
  | [] => some []
  | j :: items =>
      match readAs classes t j, readItems classes t items with
      | some v, some vs => some (v :: vs)
      | _, _ => none

end

theorem readMembers_rows (classes : ClassTable) (rows : List ((String × DataType) × Json × Value))
    (hrows : ∀ row ∈ rows, readAs classes row.1.2 row.2.1 = some row.2.2) :
    readMembers classes (rows.map Prod.fst) (rows.map fun row => (row.1.1, row.2.1)) =
      some (rows.map fun row => row.2.2) := by
  induction rows with
  | nil => rfl
  | cons row rows ih =>
      rw [List.map_cons, List.map_cons, List.map_cons, readMembers, if_pos rfl,
        hrows row List.mem_cons_self, ih fun r hr => hrows r (List.mem_cons_of_mem row hr)]

theorem readItems_rows (classes : ClassTable) (t : DataType) (rows : List (Json × Value))
    (hrows : ∀ row ∈ rows, readAs classes t row.1 = some row.2) :
    readItems classes t (rows.map Prod.fst) = some (rows.map Prod.snd) := by
  induction rows with
  | nil => rfl
  | cons row rows ih =>
      rw [List.map_cons, List.map_cons, readItems, hrows row List.mem_cons_self,
        ih fun r hr => hrows r (List.mem_cons_of_mem row hr)]

def readObject (classes : ClassTable) (isDate : Text → Bool) : Json → Option Value
  | .null => some .null
  | .boolean b => some (.boolean b)
  | .integer i =>
      some (if IntegerType.int64.InRange i then .integer .int64 i else .bigInteger i)
  | .fraction d => some (.double (.finite d))
  | .string s => some (if isDate s then .dateTime s else .string s)
  | .object d fields => readAs classes (.dto d) (.object d fields)
  | .array t items => readAs classes (.list t) (.array t items)

end InOrder

/-- The laws have a model for every class table. -/
def Newtonsoft.inOrder (classes : ClassTable) (isDate : Text → Bool) : Newtonsoft classes where
  isDate := isDate
  write := InOrder.write classes
  readAs := InOrder.readAs classes
  readObject := InOrder.readObject classes isDate
  write_null := rfl
  write_boolean _ := rfl
  write_integer _ _ := rfl
  write_finite _ := rfl
  write_notFinite d hd := by
    cases d with
    | finite _ => cases hd
    | _ => rfl
  write_string _ := rfl
  write_dto d vs := congrArg (Json.object d) (InOrder.writeMembers_eq_map classes _ vs)
  write_list t vs := congrArg (Json.array t) (InOrder.writeItems_eq_map classes vs)
  readAs_null t ht := by
    rw [InOrder.readAs, if_neg (Bool.not_eq_true _ ▸ ht)]
  readAs_boolean _ := rfl
  readAs_integer k i hrange := if_pos hrange
  readAs_fraction _ := rfl
  readAs_symbol d hd := by
    cases d with
    | finite _ => cases hd
    | nan => rfl
    | infinity negative => cases negative <;> rfl
  readAs_string _ := rfl
  readAs_object c d rows hclass hnames hrows := by
    rw [InOrder.readAs, if_pos hclass, ← hnames, InOrder.readMembers_rows classes rows hrows]
    rfl
  readAs_array t rows hrows := by
    rw [InOrder.readAs, if_pos rfl, InOrder.readItems_rows classes t rows hrows]
    rfl
  readObject_boolean _ := rfl
  readObject_int64 i hrange := congrArg some (if_pos hrange)
  readObject_bigInteger i hrange := congrArg some (if_neg hrange)
  readObject_fraction _ := rfl
  readObject_string _ := rfl
  readObject_object _ _ := rfl
  readObject_array _ _ := rfl

end Milde.Remoting
