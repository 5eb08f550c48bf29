/-
  Milde.Remoting.RoundTrip

  A result on its way to the caller: `JsonSerializer.Serialize`, `Deserialize`
  (Remoting/Serialization/JsonSerializer.cs) and the cast in `ResponseConverter`.

  `RemoteResponse.Response` is an `object`.  Objects and lists bring their type along and
  arrive, as far as UTF-8 can write their texts.  Of the primitives the reader only sees
  the token, and the cast takes no other type than the one asked for.
-/
import Milde.Remoting.Json
import Milde.Remoting.ResponseConverter

namespace Milde.Remoting

variable {classes : ClassTable}

namespace JsonSerializer

/-- `Serialize`: the document, in which only `Response` is of declared type `object`. -/
def serialize (n : Newtonsoft classes) (message : RemoteResponse Value) : RemoteResponse Json :=
  { message with response := message.response.map fun v => (n.write v).transcode }

/-- `Deserialize`. -/
def deserialize (n : Newtonsoft classes) (body : RemoteResponse Json) :
    Option (RemoteResponse Value) :=
  match body.response with
  | none => some { body with response := none }
  | some j => (n.readObject j).map fun v => { body with response := some v }

/-- A response that was serialized is read back but for its result. -/
theorem deserialize_serialize (n : Newtonsoft classes) (r : RemoteResponse Value) :
    deserialize n (serialize n r) = r.readBack fun v => n.readObject (n.write v).transcode := by
  obtain ⟨responseType, response, headers, isFaulted, exception⟩ := r
  cases response with
  | none => rfl
  | some v => rfl

end JsonSerializer

/-- `(T) o`: unboxing takes exactly the value type, a reference may be null. -/
def unbox (runtime : Runtime DataType Value) (classes : ClassTable) (targetType : DataType) :
    Option Value → Except Exception (Option Value)
  | none => if targetType.isValueType then .error .nullReference else .ok none
  | some v =>
      if v.isInstance classes targetType then .ok (some v)
      else
        let source := runtime.fullName v
        let target := runtime.typeName targetType
        .error (.other "System.InvalidCastException"
          s!"Unable to cast object of type '{source}' to type '{target}'.")

/-- The result `v` of a method that returns `Task<T>` comes out of the client's task. -/
def Delivered (n : Newtonsoft classes) (runtime : Runtime DataType Value) (t : DataType)
    (v : Value) : Prop :=
  ∃ r r', RemoteResponse.ofResponse runtime.fullName (some v) = .ok r ∧
    JsonSerializer.deserialize n (JsonSerializer.serialize n r) = some r' ∧
    ResponseConverter.convert (unbox runtime classes) r' t = .ok (.completed (some v))

/-- What comes through: of the integers an `Int64`, of the doubles a finite one, a text
    without lone surrogates that is no date, an object or a list without lone surrogates. -/
def Newtonsoft.Survives (n : Newtonsoft classes) : Value → Prop
  | .integer k _ => k = .int64
  | .double d => d.isFinite = true
  | .string s => s.WellFormed ∧ n.isDate s = false
  | v => v.WellFormed

-- ============================================================================
-- Reading what was written
-- ============================================================================

section Reading

variable {n : Newtonsoft classes} {t : DataType} {v : Value} {c d : String} {vs : List Value}

theorem transcode_symbol (d : Double) : d.symbol.transcode = d.symbol := by
  cases d with
  | infinity negative => cases negative <;> rfl
  | _ => rfl

theorem transcode_write_notFinite {d : Double} (hd : d.isFinite = false) :
    (n.write (.double d)).transcode = .string d.symbol := by
  rw [n.write_notFinite d hd, Json.transcode, transcode_symbol]

theorem readAs_write_notFinite {d : Double} (hd : d.isFinite = false) :
    n.readAs .double (n.write (.double d)).transcode = some (Value.double d).transcode := by
  rw [transcode_write_notFinite hd]
  exact n.readAs_symbol d hd

/-- The JSON of an object after the trip through bytes. -/
theorem transcode_write_dto : (n.write (.dto d vs)).transcode =
    .object d (((classes.members d).zip vs).map fun p => (p.1.1, (n.write p.2).transcode)) := by
  rw [n.write_dto, Json.transcode, Json.transcodeFields_eq_map, List.map_map]
  rfl

theorem transcode_write_list : (n.write (.list t vs)).transcode =
    .array t (vs.map fun v => (n.write v).transcode) := by
  rw [n.write_list, Json.transcode, Json.transcodeItems_eq_map, List.map_map]
  rfl

/-- An object is read back member by member. -/
theorem readAs_write_dto (hclass : classes.isAssignable d c = true)
    (hlength : (classes.members d).length = vs.length)
    (hmembers : ∀ p ∈ (classes.members d).zip vs,
      n.readAs p.1.2 (n.write p.2).transcode = some p.2.transcode) :
    n.readAs (.dto c) (n.write (.dto d vs)).transcode = some (Value.dto d vs).transcode := by
  let rows := ((classes.members d).zip vs).map fun p =>
    (p.1, (n.write p.2).transcode, p.2.transcode)
  have hnames : rows.map Prod.fst = classes.members d := by
    show List.map Prod.fst (List.map _ _) = _
    rw [List.map_map]
    exact List.map_fst_zip (Nat.le_of_eq hlength)
  have hvalues : rows.map (fun row => row.2.2) = vs.map Value.transcode := by
    calc rows.map (fun row => row.2.2)
        = (((classes.members d).zip vs).map Prod.snd).map Value.transcode := by
          rw [List.map_map, List.map_map]
          rfl
      _ = vs.map Value.transcode := by
          rw [List.map_snd_zip (Nat.le_of_eq hlength.symm)]
  have hrows : ∀ row ∈ rows, n.readAs row.1.2 row.2.1 = some row.2.2 := by
    intro row hrow
    obtain ⟨p, hp, rfl⟩ := List.mem_map.mp hrow
    exact hmembers p hp
  have hread := n.readAs_object c d rows hclass hnames hrows
  rw [hvalues, List.map_map] at hread
  rw [transcode_write_dto, Value.transcode, Value.transcodeAll_eq_map]
  exact hread

/-- A list is read back item by item. -/
theorem readAs_write_list
    (hitems : ∀ v ∈ vs, n.readAs t (n.write v).transcode = some v.transcode) :
    n.readAs (.list t) (n.write (.list t vs)).transcode = some (Value.list t vs).transcode := by
  have hrows : ∀ row ∈ vs.map fun v => ((n.write v).transcode, v.transcode),
      n.readAs t row.1 = some row.2 := by
    intro row hrow
    obtain ⟨v, hv, rfl⟩ := List.mem_map.mp hrow
    exact hitems v hv
  have hread := n.readAs_array t _ hrows
  rw [List.map_map, List.map_map] at hread
  rw [transcode_write_list, Value.transcode, Value.transcodeAll_eq_map]
  exact hread

/-- At its declared type every value is read back, with its texts through UTF-8. -/
theorem readAs_write (hv : HasType classes t v) :
    n.readAs t (n.write v).transcode = some v.transcode := by
  induction hv with
  | null href =>
      rw [n.write_null]
      exact n.readAs_null _ href
  | boolean b =>
      rw [n.write_boolean]
      exact n.readAs_boolean b
  | integer hrange =>
      rw [n.write_integer]
      exact n.readAs_integer _ _ hrange
  | double d =>
      cases d with
      | finite f =>
          rw [n.write_finite]
          exact n.readAs_fraction f
      | nan => exact readAs_write_notFinite rfl
      | infinity negative => exact readAs_write_notFinite rfl
  | string s =>
      rw [n.write_string]
      exact n.readAs_string _
  | dto hclass hlength _ ih => exact readAs_write_dto hclass hlength ih
  | list _ ih => exact readAs_write_list ih

/-- What the client reads as `object` for a result. -/
theorem readObject_write_dto (hv : HasType classes t (.dto d vs)) :
    n.readObject (n.write (.dto d vs)).transcode = some (Value.dto d vs).transcode := by
  have hself : HasType classes (.dto d) (.dto d vs) := by
    cases hv with
    | dto _ hlength hmembers => exact .dto (classes.assignableSelf d) hlength hmembers
  rw [transcode_write_dto, n.readObject_object, ← transcode_write_dto]
  exact readAs_write hself

theorem readObject_write_list {e : DataType} (hv : HasType classes t (.list e vs)) :
    n.readObject (n.write (.list e vs)).transcode = some (Value.list e vs).transcode := by
  have hself : HasType classes (.list e) (.list e vs) := by
    cases hv with
    | list hitems => exact .list hitems
  rw [transcode_write_list, n.readObject_array, ← transcode_write_list]
  exact readAs_write hself

theorem readObject_write_string (s : Text) :
    n.readObject (n.write (.string s)).transcode =
      some (if n.isDate s.transcode then .dateTime s.transcode else .string s.transcode) := by
  rw [n.write_string]
  exact n.readObject_string _

/-- A double that is no number comes back as the text that stands for it. -/
theorem readObject_write_notFinite {d : Double} (hd : d.isFinite = false) :
    n.readObject (n.write (.double d)).transcode ≠ some (.double d) := by
  rw [transcode_write_notFinite hd, n.readObject_string]
  split
  · simp
  · simp

theorem readObject_write_integer (k : IntegerType) (i : Int) :
    n.readObject (n.write (.integer k i)).transcode =
      some (if IntegerType.int64.InRange i then .integer .int64 i else .bigInteger i) := by
  rw [n.write_integer]
  split
  · rename_i hrange
    exact n.readObject_int64 i hrange
  · rename_i hrange
    exact n.readObject_bigInteger i hrange

/-- A value is an instance of its type. -/
theorem HasType.isInstance (hv : HasType classes t v) (hnull : v ≠ .null) :
    v.isInstance classes t = true := by
  cases hv with
  | null => exact absurd rfl hnull
  | dto hclass => exact hclass
  | integer => exact decide_eq_true rfl
  | list => exact decide_eq_true rfl
  | _ => rfl

end Reading

-- ============================================================================
-- The round trip
-- ============================================================================

section RoundTrip

variable {n : Newtonsoft classes} {runtime : Runtime DataType Value} {t : DataType} {v : Value}

/-- The result is delivered iff the reader makes the same value of it: the cast of a value
    of the right type succeeds, and no cast changes a value. -/
theorem delivered_iff_readObject (hv : HasType classes t v) (hnull : v ≠ .null) :
    Delivered n runtime t v ↔ n.readObject (n.write v).transcode = some v := by
  refine ⟨fun hdelivered => ?_, fun hread => ?_⟩
  · obtain ⟨r, r', hr, hr', hconvert⟩ := hdelivered
    obtain rfl := Except.ok.inj hr
    obtain ⟨v', hread, rfl⟩ := Option.map_eq_some_iff.mp hr'
    have hunbox : unbox runtime classes t (some v') = .ok (some v) := by
      simp only [ResponseConverter.convert, ResponseConverter.fromResult] at hconvert
      cases hcast : unbox runtime classes t (some v') with
      | error e =>
          rw [hcast] at hconvert
          cases hconvert
      | ok o =>
          rw [hcast] at hconvert
          cases hconvert
          rfl
    have hsame : v' = v := by
      rw [unbox] at hunbox
      split at hunbox
      · exact Option.some.inj (Except.ok.inj hunbox)
      · cases hunbox
    rw [hread, hsame]
  · refine ⟨_, _, rfl, Option.map_eq_some_iff.mpr ⟨v, hread, rfl⟩, ?_⟩
    have hunbox : unbox runtime classes t (some v) = .ok (some v) := by
      rw [unbox, if_pos (hv.isInstance hnull)]
    have hresult : ResponseConverter.fromResult (unbox runtime classes) t (some v) =
        .ok (.completed (some v)) := by
      rw [ResponseConverter.fromResult, hunbox]
      rfl
    simp only [ResponseConverter.convert, hresult]
    rfl

/-- **A result comes through iff it survives the reader's guess and UTF-8.** -/
theorem delivered_iff_survives (hv : HasType classes t v) (hnull : v ≠ .null) :
    Delivered n runtime t v ↔ n.Survives v := by
  rw [delivered_iff_readObject hv hnull]
  cases hv with
  | null => exact absurd rfl hnull
  | boolean b =>
      rw [n.write_boolean]
      exact ⟨fun _ => trivial, fun _ => n.readObject_boolean b⟩
  | @integer k i hrange =>
      rw [readObject_write_integer, Newtonsoft.Survives]
      refine ⟨fun heq => ?_, fun hk => ?_⟩
      · split at heq
        · cases heq
          rfl
        · cases heq
      · rw [hk] at hrange ⊢
        rw [if_pos hrange]
  | double d =>
      cases d with
      | finite f =>
          rw [n.write_finite]
          exact ⟨fun _ => rfl, fun _ => n.readObject_fraction f⟩
      | nan => exact iff_of_false (readObject_write_notFinite rfl) Bool.false_ne_true
      | infinity negative => exact iff_of_false (readObject_write_notFinite rfl) Bool.false_ne_true
  | string s =>
      rw [readObject_write_string, Newtonsoft.Survives, ← s.transcode_eq_self_iff]
      refine ⟨fun heq => ?_, fun ⟨hwell, hdate⟩ => ?_⟩
      · split at heq
        · cases heq
        · rename_i hdate
          have hsame : s.transcode = s := Value.string.inj (Option.some.inj heq)
          rw [hsame] at hdate
          exact ⟨hsame, Bool.not_eq_true _ ▸ hdate⟩
      · rw [hwell, hdate]
        rfl
  | dto hclass hlength hmembers =>
      rw [readObject_write_dto (HasType.dto hclass hlength hmembers), Option.some.injEq]
      exact Value.transcode_eq_self_iff _
  | list hitems =>
      rw [readObject_write_list (HasType.list hitems), Option.some.injEq]
      exact Value.transcode_eq_self_iff _

end RoundTrip

section Samples

def sampleClasses : ClassTable where
  members d :=
    if d = "PersonDto" then
      [("Name", .string), ("Age", .integer .int32), ("Marks", .list .double)]
    else []
  isAssignable d c := d = c
  distinct d := by
    split
    · decide
    · exact List.nodup_nil
  assignableSelf _ := decide_eq_true rfl

def sampleRuntime : Runtime DataType Value where
  fullName
    | .integer .int32 _ => "System.Int32"
    | .integer .int64 _ => "System.Int64"
    | .dto d _ => d
    | _ => "System.Object"
  typeName
    | .integer .int32 => "System.Int32"
    | .integer .int64 => "System.Int64"
    | .dto d => d
    | _ => "System.Object"
  serializeObject _ := "null"
  deserializeObject _ _ := .ok none

def samplePerson : Value :=
  .dto "PersonDto"
    [.string (Text.ofString "2018-01-01"), .integer .int32 42, .list .double [.double .nan]]

theorem samplePerson_hasType : HasType sampleClasses (.dto "PersonDto") samplePerson := by
  refine .dto rfl rfl fun p hp => ?_
  change p ∈ [(("Name", DataType.string), _), (("Age", .integer .int32), _),
    (("Marks", .list .double), _)] at hp
  simp only [List.mem_cons, List.not_mem_nil, or_false] at hp
  obtain rfl | rfl | rfl := hp
  · exact .string _
  · exact .integer (by decide)
  · refine .list fun v hv => ?_
    obtain rfl := List.mem_singleton.mp hv
    exact .double _

/-- Inside an object nothing is guessed: the date stays a text, the `int` an `int`. -/
theorem delivered_samplePerson :
    Delivered (Newtonsoft.inOrder sampleClasses fun s => s = Text.ofString "2018-01-01")
      sampleRuntime (.dto "PersonDto") samplePerson := by
  apply (delivered_iff_survives samplePerson_hasType (by simp [samplePerson])).mpr
  refine ⟨?_, trivial, ⟨trivial, trivial⟩, trivial⟩
  exact (Text.transcode_eq_self_iff _).mp rfl

/-- An `int` comes back as an `Int64`, which is not cast to `int`. -/
theorem int32_not_delivered :
    let n := Newtonsoft.inOrder sampleClasses fun _ => false
    let v := Value.integer .int32 42
    HasType sampleClasses (.integer .int32) v ∧
    n.readObject (n.write v).transcode = some (.integer .int64 42) ∧
    unbox sampleRuntime sampleClasses (.integer .int32) (some (.integer .int64 42)) =
      .error (.other "System.InvalidCastException"
        "Unable to cast object of type 'System.Int64' to type 'System.Int32'.") ∧
    ¬ Delivered n sampleRuntime (.integer .int32) v := by
  have htype : HasType sampleClasses (.integer .int32) (.integer .int32 42) :=
    .integer (by decide)
  refine ⟨htype, rfl, rfl, fun hdelivered => ?_⟩
  have hread := (delivered_iff_readObject htype Value.noConfusion).mp hdelivered
  cases hread

end Samples

end Milde.Remoting
