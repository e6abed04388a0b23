import JobBroker.Job.Record
import JobBroker.Proofs.Json.RoundTrip

/-!
# Stored jobs

The JSON text of a job tells the whole of the job: it is read again as that job, with the same
octets, numbers and texts, and with a reducer exactly if there was one.

* `fields?_record` : the fields of a record are read from it by their names.
* `Job.ofText?_toText` : a job is read from its text.
-/

namespace JobBroker

namespace Json

/-! ### Records -/

theorem members?_map (ms : List (String × Json)) :
    members? (ms.map fun m => (string m.1, m.2)) = some ms := by
  induction ms with
  | nil => rfl
  | cons m ms ih =>
    rw [List.map_cons, members?, ih]
    rfl

theorem member?_of_mem {ms : List (String × Json)} (hnames : (ms.map Prod.fst).Nodup)
    {m : String × Json} (hm : m ∈ ms) : member? ms m.1 = some (some m.2) := by
  have hfilter : ms.filter (·.1 = m.1) = [m] := by
    induction ms with
    | nil => cases hm
    | cons m' ms ih =>
      obtain ⟨hnot, hnames⟩ := List.nodup_cons.mp hnames
      rcases List.mem_cons.mp hm with rfl | hm
      · have hnone : ms.filter (·.1 = m.1) = [] := List.filter_eq_nil_iff.mpr fun m' hm' => by
          simpa using fun h : m'.1 = m.1 => hnot (h ▸ List.mem_map_of_mem hm')
        simp [hnone]
      · have hne : m'.1 ≠ m.1 := fun h => hnot (h ▸ List.mem_map_of_mem hm)
        simp [hne, ih hnames hm]
  rw [member?, hfilter]

theorem mapM_member? {ms : List (String × Json)} (hnames : (ms.map Prod.fst).Nodup)
    {ms' : List (String × Json)} (hsub : ∀ m ∈ ms', m ∈ ms) :
    (ms'.map Prod.fst).mapM (member? ms) = some ((ms'.map Prod.snd).map some) := by
  induction ms' with
  | nil => rfl
  | cons m ms' ih =>
    rw [List.map_cons, List.mapM_cons, member?_of_mem hnames (hsub m List.mem_cons_self),
      ih fun m hm => hsub m (List.mem_cons_of_mem _ hm)]
    rfl

/-- The fields of a record are read from it by their names. -/
theorem fields?_record {names : List String} {vs : List Json} (hnames : names.Nodup)
    (hlength : names.length = vs.length) :
    fields? names (record (names.zip vs)) = some (vs.map some) := by
  have hfst : (names.zip vs).map Prod.fst = names := List.map_fst_zip (Nat.le_of_eq hlength)
  have hsnd : (names.zip vs).map Prod.snd = vs := List.map_snd_zip (Nat.le_of_eq hlength.symm)
  have hmembers := mapM_member? (hfst.symm ▸ hnames) fun m (hm : m ∈ names.zip vs) => hm
  rw [hfst] at hmembers
  calc fields? names (record (names.zip vs))
      = names.mapM (member? (names.zip vs)) := by
        rw [record, fields?, members?_map, Option.bind_eq_bind, Option.bind_some]
    _ = some (vs.map some) := by
        rw [hmembers, hsnd]

/-! ### Fields -/

theorem natural?_natural {bound n : Nat} (h : n < bound) : natural? bound (natural n) = some n := by
  rw [natural?, natural, integer?, if_pos ⟨Int.natCast_nonneg n, Int.ofNat_lt.mpr h⟩]
  rfl

theorem nullable?_optional_string (r : Option String) :
    nullable? string? (optional string r) = some r := by
  cases r <;> rfl

end Json

open Json

theorem Priority.ofJson?_string (p : Priority) : ofJson? (string p.name) = some p := by
  cases p <;> rfl

theorem JobState.ofJson?_string (s : JobState) : ofJson? (string s.name) = some s := by
  cases s <;> rfl

theorem Bytes.ofJson?_toJson (b : Bytes) : ofJson? b.toJson = some b := by
  have hoctet : ∀ o : UInt8, ((natural? 256 (natural o.toNat)).map UInt8.ofNat) = some o :=
    fun o => by rw [natural?_natural o.toNat_lt, Option.map_some, UInt8.ofNat_toNat]
  rw [toJson, ofJson?, array?]
  induction b with
  | nil => rfl
  | cons o b ih =>
    rw [List.map_cons, List.mapM_cons, hoctet, ih]
    rfl

theorem count?_natural (n : UInt32) : count? (natural n.toNat) = some n := by
  rw [count?, natural?_natural n.toNat_lt, Option.map_some, UInt32.ofNat_toNat]

theorem time?_integer (t : Int64) : time? (integer t.toInt) = some t := by
  rw [time?, integer?, if_pos ⟨t.le_toInt, t.toInt_lt⟩, Option.map_some, Int64.ofInt_toInt]

namespace Job

/-- A job is read from its fields one after the other. -/
theorem ofJson?_of_fields {v : Json} {f u h p b t d r s n m : Option Json}
    (hv : fields? fieldNames v = some [f, u, h, p, b, t, d, r, s, n, m]) : ofJson? v =
      (required string? f).bind fun f => (required string? u).bind fun u =>
      (defaulting "" string? h).bind fun h =>
      (defaulting .normal Priority.ofJson? p).bind fun p =>
      (defaulting false bool? b).bind fun b => (defaulting (-1) time? t).bind fun t =>
      (defaulting [] Bytes.ofJson? d).bind fun d =>
      (defaulting none (nullable? string?) r).bind fun r =>
      (defaulting .queued JobState.ofJson? s).bind fun s =>
      (defaulting 0 count? n).bind fun n => (defaulting 0 count? m).bind fun m =>
      some ⟨f, u, h, p, b, t, d, r, s, n, m⟩ := by
  unfold ofJson?
  rw [hv]
  rfl

theorem ofJson?_toJson (j : Job) : ofJson? j.toJson = some j := by
  rw [ofJson?_of_fields (fields?_record (by decide) rfl)]
  have hrequired : ∀ s, required string? (some (string s)) = some s := fun _ => rfl
  have hdefaulting : ∀ {α : Type} (a : α) (value : Json → Option α) (v : Json),
    defaulting a value (some v) = value v := fun _ _ _ => rfl
  have hstring : ∀ s, string? (string s) = some s := fun _ => rfl
  have hbool : ∀ b, bool? (bool b) = some b := fun _ => rfl
  simp only [hrequired, hdefaulting, hstring, hbool, Priority.ofJson?_string, time?_integer,
    Bytes.ofJson?_toJson, nullable?_optional_string, JobState.ofJson?_string, count?_natural,
    Option.bind_some]

theorem isWritable_toJson (j : Job) : j.toJson.IsWritable := by
  have hdata : (j.data.toJson).IsWritable := by
    rw [Bytes.toJson, IsWritable]
    induction j.data with
    | nil => trivial
    | cons o b ih => exact ⟨trivial, ih⟩
  have hreducer : (optional string j.reducer).IsWritable := by
    cases j.reducer <;> trivial
  exact ⟨trivial, trivial, trivial, trivial, trivial, trivial, hdata, hreducer, trivial, trivial,
    trivial, trivial⟩

theorem ofText?_toText (j : Job) : ofText? j.toText = some j := by
  rw [ofText?, toText, ofText_toText j.isWritable_toJson, Option.bind_eq_bind, Option.bind_some,
    ofJson?_toJson]

theorem toText_injective {j j' : Job} (h : j.toText = j'.toText) : j = j' := by
  have hread := ofText?_toText j
  rw [h, ofText?_toText] at hread
  exact (Option.some.inj hread).symm

/-- A stored job comes back as it was, and no reducer is not the same as one without a name. -/
theorem restored_toText (j : Job) : ofText? j.toText = some j ∧
    ({ j with reducer := none } : Job).toText ≠ ({ j with reducer := some "" } : Job).toText :=
  ⟨ofText?_toText j, fun h => nomatch congrArg reducer (toText_injective h)⟩

end Job

end JobBroker
