import Mathlib.Algebra.Ring.Nat
import Marketlib.DateFormat

/-! Dates and timestamps from and to text through the client library. The length of a format
goes into the call as one byte, while its pointer stays at the whole text. -/

namespace Marketlib
namespace DateText

open Binding DateFormat

/-- The fields of `OCIDate` and of `OciTimestamp`. -/
structure OciFields where
  year : Int16
  (month day hour minute second : UInt8)
  deriving DecidableEq

/-- The casts of the numbers that were parsed. -/
def OciFields.ofParsed (p : ParsedMockDateTime) : OciFields :=
  ⟨.ofInt p.year,.ofInt p.month,.ofInt p.day,.ofInt p.hour,.ofInt p.minute,.ofInt p.second⟩

def OciFields.toDateFields (v : OciFields) : DateFields :=
  ⟨v.year.toInt,v.month.toNat,v.day.toNat,v.hour.toNat,v.minute.toNat,v.second.toNat⟩

structure MockDateTimeDescriptor extends OciFields where
  year := 1970
  month := 1
  day := 1
  hour := 0
  minute := 0
  second := 0
  fsec : UInt32 := 0

/-- What a pointer and a length of so many bits denote. -/
def passed (bits : ℕ) (s : Text) : Text := s.take (s.length % 2^bits)

def ociDateFromText (currentYr : ℤ) (dateStr fmt : Text) : Option OciFields :=
  (parseWithMockFormat currentYr dateStr fmt).map .ofParsed

def ociDateToText (date : OciFields) (fmt : Text) (bufSize : ℕ) : Option Text :=
  let rendered := renderWithMockFormat fmt date.toDateFields
  if bufSize < rendered.length then none else some rendered

def ociDateTimeFromText (currentYr : ℤ) (dateStr fmt : Text) : Option MockDateTimeDescriptor :=
  (parseWithMockFormat currentYr dateStr fmt).map fun p => { OciFields.ofParsed p with fsec := 0 }

def ociDateTimeConstruct (v : OciFields) (fsec : UInt32) : MockDateTimeDescriptor :=
  { v with fsec := fsec }

/-- `OCIDateTimeGetDate` and `OCIDateTimeGetTime`, but for the fraction of the second. -/
def ociDateTimeGet (datetime : MockDateTimeDescriptor) : OciFields := datetime.toOciFields

def ociDateTimeToText (datetime : MockDateTimeDescriptor) (fmt : Text) (bufSize : ℕ) :
    Option Text :=
  let rendered := renderWithMockFormat fmt datetime.toDateFields
  if bufSize < rendered.length then none else some rendered

/-- A result of the client library, or what is thrown in its place. -/
def orThrow {α : Type} (what : Text) : Option α → Except Text α
  | some a => .ok a
  | none => .error what

/-- `resolve_format` with the text of its error. -/
def resolveFormat (needs defaultFormat format : Text) : Except Text Text :=
  if format ≠ [] then .ok format
  else if defaultFormat = [] then .error needs
  else .ok defaultFormat

/-- The number of bytes of the buffer in `to_text`. -/
def bufferSize : ℕ := 128

def OciDate.resolveFormat (defaultFormat format : Text) : Except Text Text :=
  DateText.resolveFormat
    ("binding: OciDate::from_text/to_text needs a format -- pass one explicitly, " ++
      "or call OciDate::set_default_format(...) to restore a default").toList
    defaultFormat format

def OciDate.fromText (currentYr : ℤ) (defaultFormat value format : Text) :
    Except Text OciFields := do
  let fmt ← OciDate.resolveFormat defaultFormat format
  orThrow ("binding: OCIDateFromText failed parsing '".toList ++ value ++
      "' against format '".toList ++ fmt ++ "'".toList)
    (ociDateFromText currentYr (passed 32 value) (passed 8 fmt))

def OciDate.toText (v : OciFields) (defaultFormat format : Text) : Except Text Text := do
  let fmt ← OciDate.resolveFormat defaultFormat format
  orThrow ("binding: OCIDateToText failed rendering against format '".toList ++ fmt ++
      "'".toList)
    (ociDateToText v (passed 8 fmt) bufferSize)

def OciTimestamp.resolveFormat (defaultFormat format : Text) : Except Text Text :=
  DateText.resolveFormat
    ("binding: OciTimestamp::from_text/to_text needs a format -- pass one explicitly, " ++
      "or call OciTimestamp::set_default_format(...) to restore a default").toList
    defaultFormat format

/-- `OCIDescriptorAlloc` of a timestamp, which the client library may refuse. -/
def allocDescriptor (allocated : Bool) : Except Text Unit :=
  if allocated then .ok ()
  else .error "binding: OCIDescriptorAlloc(OCI_DTYPE_TIMESTAMP) failed".toList

def OciTimestamp.fromText (currentYr : ℤ) (allocated : Bool) (defaultFormat value format : Text) :
    Except Text OciFields := do
  let fmt ← OciTimestamp.resolveFormat defaultFormat format
  allocDescriptor allocated
  orThrow ("binding: OCIDateTimeFromText failed parsing '".toList ++ value ++
      "' against format '".toList ++ fmt ++ "'".toList)
    ((ociDateTimeFromText currentYr value (passed 8 fmt)).map ociDateTimeGet)

def OciTimestamp.toText (v : OciFields) (allocated : Bool) (defaultFormat format : Text) :
    Except Text Text := do
  let fmt ← OciTimestamp.resolveFormat defaultFormat format
  allocDescriptor allocated
  orThrow ("binding: OCIDateTimeToText failed rendering against format '".toList ++ fmt ++
      "'".toList)
    (ociDateTimeToText (ociDateTimeConstruct v 0) (passed 8 fmt) bufferSize)

/-! ### What the calls return -/

theorem length_passed (bits : ℕ) (s : Text) : (passed bits s).length = s.length % 2^bits := by
  rw [passed,List.length_take]
  exact min_eq_left (Nat.mod_le _ _)

theorem passed_of_lt {bits : ℕ} {s : Text} (h : s.length < 2^bits) : passed bits s = s := by
  rw [passed,Nat.mod_eq_of_lt h,List.take_length]

theorem orThrow_eq_ok {α : Type} {what : Text} {result : Option α} {a : α} :
    orThrow what result = .ok a ↔ result = some a := by
  cases result <;> simp [orThrow]

/-- The format that a call goes by, empty where it has none. -/
def resolved (defaultFormat format : Text) : Text := if format ≠ [] then format else defaultFormat

theorem resolveFormat_bind_eq_ok {α : Type} {needs defaultFormat format : Text}
    {f : Text → Except Text α} {a : α} :
    resolveFormat needs defaultFormat format >>= f = .ok a ↔
      resolved defaultFormat format ≠ [] ∧ f (resolved defaultFormat format) = .ok a := by
  unfold resolveFormat resolved
  by_cases hformat : format = []
  · by_cases hdefault : defaultFormat = [] <;> simp [hformat,hdefault,bind,Except.bind]
  · simp [hformat,bind,Except.bind]

theorem allocDescriptor_bind_eq_ok {α : Type} {allocated : Bool} {x : Except Text α} {a : α} :
    (allocDescriptor allocated >>= fun _ => x) = .ok a ↔ allocated = true ∧ x = .ok a := by
  cases allocated <;> simp [allocDescriptor,bind,Except.bind]

theorem ociDateToText_eq_some {v : OciFields} {fmt s : Text} {bufSize : ℕ} :
    ociDateToText v fmt bufSize = some s ↔
      (renderWithMockFormat fmt v.toDateFields).length ≤ bufSize ∧
        renderWithMockFormat fmt v.toDateFields = s := by
  unfold ociDateToText
  dsimp only
  split_ifs with hlong
  · simp [hlong]
  · simp [Nat.le_of_not_lt hlong]

theorem OciDate.fromText_eq_ok {currentYr : ℤ} {defaultFormat value format : Text}
    {v : OciFields} :
    OciDate.fromText currentYr defaultFormat value format = .ok v ↔
      resolved defaultFormat format ≠ [] ∧
        (parseWithMockFormat currentYr (passed 32 value)
          (passed 8 (resolved defaultFormat format))).map .ofParsed = some v := by
  rw [OciDate.fromText,OciDate.resolveFormat,resolveFormat_bind_eq_ok,orThrow_eq_ok,
    ociDateFromText]

theorem OciDate.toText_eq_ok {defaultFormat format s : Text} {v : OciFields} :
    OciDate.toText v defaultFormat format = .ok s ↔
      resolved defaultFormat format ≠ [] ∧
        (renderWithMockFormat (passed 8 (resolved defaultFormat format))
            v.toDateFields).length ≤ bufferSize ∧
          renderWithMockFormat (passed 8 (resolved defaultFormat format)) v.toDateFields = s := by
  rw [OciDate.toText,OciDate.resolveFormat,resolveFormat_bind_eq_ok,orThrow_eq_ok,
    ociDateToText_eq_some]

theorem ociDateTimeFromText_map_get (currentYr : ℤ) (dateStr fmt : Text) :
    (ociDateTimeFromText currentYr dateStr fmt).map ociDateTimeGet =
      (parseWithMockFormat currentYr dateStr fmt).map .ofParsed := by
  rw [ociDateTimeFromText,Option.map_map]
  rfl

/-- The calls for a timestamp add the descriptor to those for a date. -/
theorem OciTimestamp.fromText_eq_ok {currentYr : ℤ} {allocated : Bool}
    {defaultFormat value format : Text} {v : OciFields} :
    OciTimestamp.fromText currentYr allocated defaultFormat value format = .ok v ↔
      resolved defaultFormat format ≠ [] ∧ allocated = true ∧
        (parseWithMockFormat currentYr value
          (passed 8 (resolved defaultFormat format))).map .ofParsed = some v := by
  rw [OciTimestamp.fromText,OciTimestamp.resolveFormat,resolveFormat_bind_eq_ok,
    allocDescriptor_bind_eq_ok,orThrow_eq_ok,ociDateTimeFromText_map_get]

theorem OciTimestamp.toText_eq_ok {allocated : Bool} {defaultFormat format s : Text}
    {v : OciFields} :
    OciTimestamp.toText v allocated defaultFormat format = .ok s ↔
      resolved defaultFormat format ≠ [] ∧ allocated = true ∧
        (renderWithMockFormat (passed 8 (resolved defaultFormat format))
            v.toDateFields).length ≤ bufferSize ∧
          renderWithMockFormat (passed 8 (resolved defaultFormat format)) v.toDateFields = s := by
  rw [OciTimestamp.toText,OciTimestamp.resolveFormat,resolveFormat_bind_eq_ok,
    allocDescriptor_bind_eq_ok,orThrow_eq_ok]
  exact and_congr_right fun _ => and_congr_right fun _ => ociDateToText_eq_some

/-! ### A format whose length does not fit -/

/-- A text that the passed part of a long format parses is too short for the whole format. -/
theorem parse_of_parse_passed {currentYr : ℤ} {text fmt : Text} {p : ParsedMockDateTime}
    (hlong : 2^8 ≤ fmt.length) (h : parseWithMockFormat currentYr text (passed 8 fmt) = some p) :
    parseWithMockFormat currentYr text fmt = none := by
  rw [Option.eq_none_iff_forall_not_mem]
  intro q hq
  have hshort := textWidth_le (passed 8 fmt)
  rw [← length_of_parseWithMockFormat h,length_passed,length_of_parseWithMockFormat hq] at hshort
  have hwhole := le_textWidth fmt
  omega

/-- A long format renders to more than fits in the buffer, or its passed part is empty. -/
theorem render_passed_ne {fmt : Text} {d : DateFields} (hlong : 2^8 ≤ fmt.length)
    (hfits : (renderWithMockFormat (passed 8 fmt) d).length ≤ bufferSize) :
    renderWithMockFormat (passed 8 fmt) d ≠ renderWithMockFormat fmt d := by
  intro heq
  have hwhole := le_textWidth fmt
  have hrendered := le_length_renderWithMockFormat fmt d
  rw [← heq] at hrendered
  rw [bufferSize] at hfits
  have hexact : fmt.length = 2^8 := by omega
  have hempty : passed 8 fmt = [] :=
    List.eq_nil_of_length_eq_zero (by rw [length_passed,hexact,Nat.mod_self])
  rw [hempty,show renderWithMockFormat [] d = [] from rfl,List.length_nil] at hrendered
  omega

/-- The call throws, or it returns what the whole format gives. -/
def UsesWhole {α : Type} (result : Except Text α) (whole : Option α) : Prop :=
  ∀ a, result = .ok a → whole = some a

theorem passed_parses_iff (currentYr : ℤ) (text fmt : Text) :
    (∀ v : OciFields, (parseWithMockFormat currentYr text (passed 8 fmt)).map .ofParsed = some v →
        (parseWithMockFormat currentYr text fmt).map .ofParsed = some v) ↔
      fmt.length < 2^8 ∨ parseWithMockFormat currentYr text (passed 8 fmt) = none := by
  constructor
  · intro h
    cases hpart : parseWithMockFormat currentYr text (passed 8 fmt) with
    | none => exact .inr rfl
    | some p =>
      refine .inl (Nat.lt_of_not_le fun hlong => ?_)
      have hwhole := h (.ofParsed p) (by rw [hpart,Option.map_some])
      rw [parse_of_parse_passed hlong hpart] at hwhole
      cases hwhole
  · rintro (hshort | hnone) v hv
    · rwa [passed_of_lt hshort] at hv
    · rw [hnone] at hv
      cases hv

theorem passed_renders_iff (fmt : Text) (d : DateFields) :
    ((renderWithMockFormat (passed 8 fmt) d).length ≤ bufferSize →
        renderWithMockFormat (passed 8 fmt) d = renderWithMockFormat fmt d) ↔
      fmt.length < 2^8 ∨ bufferSize < (renderWithMockFormat (passed 8 fmt) d).length := by
  constructor
  · intro h
    rcases Nat.lt_or_ge bufferSize (renderWithMockFormat (passed 8 fmt) d).length with hlt | hfits
    · exact .inr hlt
    · exact .inl (Nat.lt_of_not_le fun hlong => render_passed_ne hlong hfits (h hfits))
  · rintro (hshort | hlt) hfits
    · rw [passed_of_lt hshort]
    · exact absurd hfits (Nat.not_le_of_lt hlt)

variable (currentYr : ℤ) (allocated : Bool) (defaultFormat value format : Text) (v : OciFields)

theorem timestamp_fromText_uses_whole_iff :
    UsesWhole (OciTimestamp.fromText currentYr allocated defaultFormat value format)
        ((parseWithMockFormat currentYr value (resolved defaultFormat format)).map .ofParsed) ↔
      allocated = false ∨ (resolved defaultFormat format).length < 2^8 ∨
        parseWithMockFormat currentYr value (passed 8 (resolved defaultFormat format)) = none := by
  rw [← passed_parses_iff]
  unfold UsesWhole
  constructor
  · intro h
    refine or_iff_not_imp_left.mpr fun halloc v hv => ?_
    by_cases hnil : resolved defaultFormat format = []
    · rwa [hnil] at hv ⊢
    · exact h v (OciTimestamp.fromText_eq_ok.mpr ⟨hnil,Bool.eq_true_of_not_eq_false halloc,hv⟩)
  · intro h v hv
    obtain ⟨-,halloc,hv⟩ := OciTimestamp.fromText_eq_ok.mp hv
    rcases h with hfailed | h
    · exact absurd (hfailed.symm.trans halloc) Bool.false_ne_true
    · exact h v hv

theorem timestamp_toText_uses_whole_iff :
    UsesWhole (OciTimestamp.toText v allocated defaultFormat format)
        (some (renderWithMockFormat (resolved defaultFormat format) v.toDateFields)) ↔
      allocated = false ∨ (resolved defaultFormat format).length < 2^8 ∨
        bufferSize < (renderWithMockFormat (passed 8 (resolved defaultFormat format))
          v.toDateFields).length := by
  rw [← passed_renders_iff]
  unfold UsesWhole
  constructor
  · intro h
    refine or_iff_not_imp_left.mpr fun halloc hfits => ?_
    by_cases hnil : resolved defaultFormat format = []
    · rw [hnil]
      rfl
    · exact (Option.some_inj.mp (h _ (OciTimestamp.toText_eq_ok.mpr
        ⟨hnil,Bool.eq_true_of_not_eq_false halloc,hfits,rfl⟩))).symm
  · intro h s hs
    obtain ⟨-,halloc,hfits,rfl⟩ := OciTimestamp.toText_eq_ok.mp hs
    rcases h with hfailed | h
    · exact absurd (hfailed.symm.trans halloc) Bool.false_ne_true
    · rw [h hfits]

theorem date_toText_uses_whole_iff :
    UsesWhole (OciDate.toText v defaultFormat format)
        (some (renderWithMockFormat (resolved defaultFormat format) v.toDateFields)) ↔
      (resolved defaultFormat format).length < 2^8 ∨
        bufferSize < (renderWithMockFormat (passed 8 (resolved defaultFormat format))
          v.toDateFields).length := by
  have hsame : ∀ s, OciDate.toText v defaultFormat format = .ok s ↔
      OciTimestamp.toText v true defaultFormat format = .ok s := by
    intro s
    rw [OciDate.toText_eq_ok,OciTimestamp.toText_eq_ok]
    simp only [true_and]
  have h := timestamp_toText_uses_whole_iff true defaultFormat format v
  unfold UsesWhole at h ⊢
  simp only [hsame]
  rw [h]
  simp only [Bool.true_eq_false,false_or]

/-- The length of the text is cut as well, to four bytes. -/
theorem date_fromText_uses_whole_iff :
    UsesWhole (OciDate.fromText currentYr defaultFormat value format)
        ((parseWithMockFormat currentYr value (resolved defaultFormat format)).map .ofParsed) ↔
      resolved defaultFormat format = [] ∨
        (resolved defaultFormat format).length < 2^8 ∧ value.length < 2^32 ∨
        parseWithMockFormat currentYr (passed 32 value)
          (passed 8 (resolved defaultFormat format)) = none ∨
        (2^32 ≤ value.length ∧ 2^32 ≤ (resolved defaultFormat format).length) ∧
          (parseWithMockFormat currentYr value (resolved defaultFormat format)).map
              OciFields.ofParsed =
            (parseWithMockFormat currentYr (passed 32 value)
              (passed 8 (resolved defaultFormat format))).map .ofParsed := by
  generalize hfmt : resolved defaultFormat format = fmt
  unfold UsesWhole
  constructor
  · intro h
    refine or_iff_not_imp_left.mpr fun hne => ?_
    cases hpart : parseWithMockFormat currentYr (passed 32 value) (passed 8 fmt) with
    | none => exact .inr (.inl rfl)
    | some p =>
      have hresult : OciDate.fromText currentYr defaultFormat value format = .ok (.ofParsed p) :=
        OciDate.fromText_eq_ok.mpr ⟨hfmt ▸ hne,by rw [hfmt,hpart,Option.map_some]⟩
      have hwhole := h _ hresult
      obtain ⟨q,hq,-⟩ := Option.map_eq_some_iff.mp hwhole
      rcases Nat.lt_or_ge value.length (2^32) with hshort | hlong
      · rw [passed_of_lt hshort] at hpart
        refine .inl ⟨Nat.lt_of_not_le fun hle => ?_,hshort⟩
        rw [parse_of_parse_passed hle hpart] at hq
        cases hq
      · have hlength := (length_of_parseWithMockFormat hq).trans_le (textWidth_le fmt)
        exact .inr (.inr ⟨⟨hlong,hlong.trans hlength⟩,by rw [hwhole,Option.map_some]⟩)
  · intro h v hv
    rw [OciDate.fromText_eq_ok,hfmt] at hv
    obtain ⟨hne,hv⟩ := hv
    rcases h with hnil | ⟨hshort,htext⟩ | hnone | ⟨-,hsame⟩
    · exact absurd hnil hne
    · rwa [passed_of_lt hshort,passed_of_lt htext] at hv
    · rw [hnone] at hv
      cases hv
    · rw [hsame,hv]

/-- A call keeps to the whole format where its length fits in a byte, and else where the call
throws in spite of it. -/
theorem uses_whole_format_iff :
    (UsesWhole (OciDate.fromText currentYr defaultFormat value format)
        ((parseWithMockFormat currentYr value (resolved defaultFormat format)).map .ofParsed) ↔
      resolved defaultFormat format = [] ∨
        (resolved defaultFormat format).length < 2^8 ∧ value.length < 2^32 ∨
        parseWithMockFormat currentYr (passed 32 value)
          (passed 8 (resolved defaultFormat format)) = none ∨
        (2^32 ≤ value.length ∧ 2^32 ≤ (resolved defaultFormat format).length) ∧
          (parseWithMockFormat currentYr value (resolved defaultFormat format)).map
              OciFields.ofParsed =
            (parseWithMockFormat currentYr (passed 32 value)
              (passed 8 (resolved defaultFormat format))).map .ofParsed) ∧
    (UsesWhole (OciDate.toText v defaultFormat format)
        (some (renderWithMockFormat (resolved defaultFormat format) v.toDateFields)) ↔
      (resolved defaultFormat format).length < 2^8 ∨
        bufferSize < (renderWithMockFormat (passed 8 (resolved defaultFormat format))
          v.toDateFields).length) ∧
    (UsesWhole (OciTimestamp.fromText currentYr allocated defaultFormat value format)
        ((parseWithMockFormat currentYr value (resolved defaultFormat format)).map .ofParsed) ↔
      allocated = false ∨ (resolved defaultFormat format).length < 2^8 ∨
        parseWithMockFormat currentYr value (passed 8 (resolved defaultFormat format)) = none) ∧
    (UsesWhole (OciTimestamp.toText v allocated defaultFormat format)
        (some (renderWithMockFormat (resolved defaultFormat format) v.toDateFields)) ↔
      allocated = false ∨ (resolved defaultFormat format).length < 2^8 ∨
        bufferSize < (renderWithMockFormat (passed 8 (resolved defaultFormat format))
          v.toDateFields).length) :=
  ⟨date_fromText_uses_whole_iff currentYr defaultFormat value format,
    date_toText_uses_whole_iff defaultFormat format v,
    timestamp_fromText_uses_whole_iff currentYr allocated defaultFormat value format,
    timestamp_toText_uses_whole_iff allocated defaultFormat format v⟩

/-- Of these 264 characters, 8 are passed. -/
def longFormat : Text := "YYYYMMDD".toList ++ List.replicate 256 '-'

theorem length_longFormat : longFormat.length = 264 := by
  have hpassed : "YYYYMMDD".toList.length = 8 := by decide
  have hlength : longFormat.length = "YYYYMMDD".toList.length+(List.replicate 256 '-').length :=
    List.length_append
  rw [hlength,hpassed,List.length_replicate]

theorem fromText_by_prefix :
    OciDate.fromText 2026 "DD-MON-RR".toList "20240229".toList longFormat =
        .ok ⟨2024,2,29,0,0,0⟩ ∧
      ¬UsesWhole (OciDate.fromText 2026 "DD-MON-RR".toList "20240229".toList longFormat)
        ((parseWithMockFormat 2026 "20240229".toList
          (resolved "DD-MON-RR".toList longFormat)).map .ofParsed) := by
  have hpassed : passed 8 longFormat = "YYYYMMDD".toList := by
    rw [passed,length_longFormat]
    exact List.take_left' rfl
  have hne : longFormat ≠ [] := List.append_ne_nil_of_left_ne_nil (List.cons_ne_nil _ _) _
  have hresolved : resolved "DD-MON-RR".toList longFormat = longFormat := if_pos hne
  have hpart : parseWithMockFormat 2026 "20240229".toList (passed 8 longFormat) =
      some { year := 2024, month := 2, day := 29 } := by
    rw [hpassed]
    decide
  have hlong : 2^8 ≤ longFormat.length := by
    rw [length_longFormat]
    decide
  have hresult : OciDate.fromText 2026 "DD-MON-RR".toList "20240229".toList longFormat =
      .ok ⟨2024,2,29,0,0,0⟩ := by
    rw [OciDate.fromText_eq_ok,hresolved,passed_of_lt (by decide),hpart]
    exact ⟨hne,rfl⟩
  refine ⟨hresult,fun h => ?_⟩
  have hwhole := h _ hresult
  rw [hresolved,parse_of_parse_passed hlong hpart] at hwhole
  cases hwhole

end DateText
end Marketlib
