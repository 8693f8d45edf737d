import Mathlib.Algebra.Order.Group.Int
import Marketlib.DateFormat

/-! A date rendered by a format and parsed by the same format. -/

namespace Marketlib
namespace DateFormat

open Binding

/-! ### Along a fold -/

/-- What one step brings about and every step keeps holds at the end. -/
theorem foldl_of_set {σ ε : Type*} {f : σ → ε → σ} {l : List ε} {P : σ → Prop} {e : ε}
    (hmem : e ∈ l) (hset : ∀ s, P (f s e)) (hkeep : ∀ a ∈ l, ∀ s, P s → P (f s a)) (s : σ) :
    P (l.foldl f s) := by
  obtain ⟨before,after,rfl⟩ := List.append_of_mem hmem
  rw [List.foldl_append,List.foldl_cons]
  refine List.foldlRecOn after f (hset _) fun s hs a ha => hkeep a ?_ s hs
  exact List.mem_append_right _ (List.mem_cons_of_mem _ ha)

/-! ### One element -/

/-- A day of the calendar with its time. -/
structure CalendarTime extends DateFields where
  year_le : 0 ≤ year ∧ year ≤ 9999
  month_le : 1 ≤ month ∧ month ≤ 12
  day_le : 1 ≤ day ∧ day ≤ 31
  hour_le : 0 ≤ hour ∧ hour ≤ 23
  minute_le : 0 ≤ minute ∧ minute ≤ 59
  second_le : 0 ≤ second ∧ second ≤ 59

/-- The hundred years that two digits stand for: in the first half of a century those around its
first year, in the second half those from its middle on. -/
def InRRWindow (currentYr year : ℤ) : Prop :=
  let century := currentYr.tdiv 100*100
  if currentYr.tmod 100 ≤ 49 then century-50 ≤ year ∧ year < century+50
  else century+50 ≤ year ∧ year < century+150

instance (currentYr year : ℤ) : Decidable (InRRWindow currentYr year) :=
  inferInstanceAs (Decidable (ite _ _ _))

theorem mockRRYear_of_window {currentYr year : ℤ} (hyear : 0 ≤ year)
    (h : InRRWindow currentYr year) : mockRRYear (year.tmod 100) currentYr = year := by
  unfold InRRWindow at h
  unfold mockRRYear
  rw [Int.tmod_eq_emod_of_nonneg hyear]
  dsimp only at h ⊢
  split_ifs at h ⊢ <;> omega

/-- `readDigits` reads back what is padded to its width. -/
theorem readDigits_zeroPadMock {width : ℕ} {value : ℤ} (hwidth : 0 < width) (hnonneg : 0 ≤ value)
    (hlt : value < 10^width) (rest : Text) :
    readDigits width (zeroPadMock value width ++ rest) = some (value,rest) := by
  lift value to ℕ using hnonneg
  have hdecimal : decimal (value : ℤ) = Nat.toDigits 10 value := by simp [decimal]
  have hdigits : (Nat.toDigits 10 value).length ≤ width :=
    (Nat.length_toDigits_le_iff (by decide) hwidth).mpr (by exact_mod_cast hlt)
  have hlength : (zeroPadMock value width).length = width := by
    rw [zeroPadMock,hdecimal,List.length_leftpad]
    exact max_eq_left hdigits
  have hread : ofDigits (zeroPadMock value width) = some value := by
    have hne : zeroPadMock (value : ℤ) width ≠ [] :=
      List.ne_nil_of_length_pos (hwidth.trans_eq hlength.symm)
    rw [ofDigits_eq_ofDigitChars hne,zeroPadMock,hdecimal,List.leftpad,Nat.ofDigitChars_append,
      Nat.ofDigitChars_replicate_zero,Nat.mul_zero,Nat.ofDigitChars_ten_toDigits]
    intro c hc
    rw [zeroPadMock,hdecimal,List.leftpad,List.mem_append,List.mem_replicate] at hc
    rcases hc with ⟨-,rfl⟩ | hc
    · rfl
    · exact isDigit_of_mem_toDigits hc
  rw [readDigits,if_neg (by rw [List.length_append,hlength]; omega),List.take_left' hlength,
    List.drop_left' hlength,hread]
  rfl

/-- The number of a month's name. -/
theorem idxOf?_monthNames (i : Fin 12) :
    monthNames.idxOf? ((monthNames.getD i []).map Char.toUpper) = some i.val := by
  revert i
  decide

theorem clockHour_bounds {hour : ℤ} (h : 0 ≤ hour) : 1 ≤ clockHour hour ∧ clockHour hour ≤ 12 := by
  unfold clockHour
  rw [Int.tmod_eq_emod_of_nonneg h]
  dsimp only
  split_ifs <;> omega

/-- What an element that was rendered from `d` leaves in the fields. -/
def recorded (d : DateFields) (out : ParsedMockDateTime) : FormatElement → ParsedMockDateTime
  | .year4 | .year2 | .rrYear => { out with year := d.year }
  | .month | .monthAbbrev => { out with month := d.month }
  | .day => { out with day := d.day }
  | .hour24 => { out with hour := d.hour }
  | .hour12 => { out with hour := clockHour d.hour, hasMeridiem := true }
  | .minute => { out with minute := d.minute }
  | .second => { out with second := d.second }
  | .meridiem => { out with isPm := 12 ≤ d.hour, hasMeridiem := true }
  | .literal _ => out

theorem parseElement_monthAbbrev (currentYr : ℤ) (d : CalendarTime) (out : ParsedMockDateTime)
    (rest : Text) :
    parseElement currentYr out (renderElement d.toDateFields .monthAbbrev ++ rest) .monthAbbrev =
      some ({ out with month := d.month },rest) := by
  obtain ⟨hlower,hupper⟩ := d.month_le
  have hlt : d.month.toNat-1 < 12 := by omega
  have hlength : (monthNames.getD (d.month.toNat-1) []).length = 3 := by
    rw [List.getD_eq_getElem monthNames [] (show _ < monthNames.length from hlt)]
    exact length_of_mem_monthNames (List.getElem_mem _)
  have hmonth : ((d.month.toNat-1 : ℕ) : ℤ)+1 = d.month := by omega
  rw [renderElement,if_pos ⟨hlower,hupper⟩,parseElement,
    if_neg (by rw [List.length_append,hlength]; omega),List.take_left' hlength,
    List.drop_left' hlength,idxOf?_monthNames ⟨_,hlt⟩,Option.map_some,hmonth]

theorem parseElement_meridiem (currentYr : ℤ) (d : DateFields) (out : ParsedMockDateTime)
    (rest : Text) :
    parseElement currentYr out (renderElement d .meridiem ++ rest) .meridiem =
      some ({ out with isPm := 12 ≤ d.hour, hasMeridiem := true },rest) := by
  rw [renderElement]
  by_cases hhour : d.hour < 12
  · rw [if_pos hhour,decide_eq_false (not_le.mpr hhour)]
    rfl
  · rw [if_neg hhour,decide_eq_true (not_lt.mp hhour)]
    rfl

/-- An element reads back what was rendered for it, whatever follows. -/
theorem parseElement_renderElement {currentYr : ℤ} {d : CalendarTime} {e : FormatElement}
    (hyear2 : e ≠ .year2) (hrr : e = .rrYear → InRRWindow currentYr d.year)
    (out : ParsedMockDateTime) (rest : Text) :
    parseElement currentYr out (renderElement d.toDateFields e ++ rest) e =
      some (recorded d.toDateFields out e,rest) := by
  obtain ⟨hyear,hyear'⟩ := d.year_le
  obtain ⟨hmonth,hmonth'⟩ := d.month_le
  obtain ⟨hday,hday'⟩ := d.day_le
  obtain ⟨hhour,hhour'⟩ := d.hour_le
  obtain ⟨hminute,hminute'⟩ := d.minute_le
  obtain ⟨hsecond,hsecond'⟩ := d.second_le
  obtain ⟨hclock,hclock'⟩ := clockHour_bounds hhour
  have htwo {value : ℤ} (hnonneg : 0 ≤ value) (hlt : value < 100) :
      readDigits 2 (zeroPadMock value 2 ++ rest) = some (value,rest) :=
    readDigits_zeroPadMock Nat.two_pos hnonneg hlt rest
  cases e with
  | year4 =>
    rw [parseElement,renderElement,
      readDigits_zeroPadMock (by decide) hyear (Int.lt_of_le_of_lt hyear' (by decide))]
    rfl
  | year2 => exact absurd rfl hyear2
  | rrYear =>
    have hdigits : 0 ≤ d.year.tmod 100 ∧ d.year.tmod 100 < 100 := by
      rw [Int.tmod_eq_emod_of_nonneg hyear]
      omega
    rw [parseElement,renderElement,htwo hdigits.1 hdigits.2,Option.map_some,
      mockRRYear_of_window hyear (hrr rfl)]
    rfl
  | month => rw [parseElement,renderElement,htwo (by omega) (by omega)]; rfl
  | monthAbbrev => exact parseElement_monthAbbrev currentYr d out rest
  | day => rw [parseElement,renderElement,htwo (by omega) (by omega)]; rfl
  | hour24 => rw [parseElement,renderElement,htwo hhour (by omega)]; rfl
  | hour12 => rw [parseElement,renderElement,htwo (by omega) (by omega)]; rfl
  | minute => rw [parseElement,renderElement,htwo hminute (by omega)]; rfl
  | second => rw [parseElement,renderElement,htwo hsecond (by omega)]; rfl
  | meridiem => exact parseElement_meridiem currentYr d.toDateFields out rest
  | literal c =>
    show parseElement currentYr out (c :: rest) (.literal c) = _
    rw [parseElement,if_pos rfl]
    rfl

/-- The elements of a format read back what was rendered for them, one after the other. -/
theorem parseElements_renderElements {currentYr : ℤ} {d : CalendarTime}
    {tokens : List FormatElement} (hyear2 : .year2 ∉ tokens)
    (hrr : .rrYear ∈ tokens → InRRWindow currentYr d.year) (out : ParsedMockDateTime)
    (rest : Text) :
    parseElements currentYr tokens out (tokens.flatMap (renderElement d.toDateFields) ++ rest) =
      some (tokens.foldl (recorded d.toDateFields) out,rest) := by
  induction tokens generalizing out with
  | nil => rfl
  | cons e tokens ih =>
    obtain ⟨hne,hyear2⟩ := List.ne_and_not_mem_of_not_mem_cons hyear2
    have hwindow : e = .rrYear → InRRWindow currentYr d.year := by
      rintro rfl
      exact hrr List.mem_cons_self
    rw [List.flatMap_cons,List.append_assoc,parseElements,
      parseElement_renderElement (Ne.symm hne) hwindow,Option.bind_some,
      ih hyear2 fun hmem => hrr (List.mem_cons_of_mem _ hmem),List.foldl_cons]

/-! ### The whole text -/

/-- The field that an element is about is the same in two dates. -/
def FormatElement.SameIn (p d : DateFields) : FormatElement → Prop
  | .year4 | .year2 | .rrYear => p.year = d.year
  | .month | .monthAbbrev => p.month = d.month
  | .day => p.day = d.day
  | .hour24 | .hour12 | .meridiem => p.hour = d.hour
  | .minute => p.minute = d.minute
  | .second => p.second = d.second
  | .literal _ => True

/-- The hour elements of a format tell the hour of the day, or there is none. -/
def NamesHour (tokens : List FormatElement) : Prop :=
  (.hour24 ∉ tokens ∧ .hour12 ∉ tokens ∧ .meridiem ∉ tokens) ∨
    (.hour24 ∈ tokens ∧ .hour12 ∉ tokens ∧ .meridiem ∉ tokens) ∨
      (.hour24 ∉ tokens ∧ .hour12 ∈ tokens ∧ .meridiem ∈ tokens)

instance (tokens : List FormatElement) : Decidable (NamesHour tokens) :=
  inferInstanceAs (Decidable (_ ∨ _))

/-- Only the hour is changed once the text was read. -/
theorem withMeridiem_eq (out : ParsedMockDateTime) :
    ∃ hour, out.withMeridiem = { out with hour := hour } := by
  unfold ParsedMockDateTime.withMeridiem
  split
  · exact ⟨_,rfl⟩
  · exact ⟨out.hour,rfl⟩

/-- The hour of the day comes back from the face of the clock and its half. -/
theorem withMeridiem_clockHour {out : ParsedMockDateTime} {hour : ℤ} (hnonneg : 0 ≤ hour)
    (hlt : hour ≤ 23) (hmeridiem : out.hasMeridiem = true) (hpm : out.isPm = decide (12 ≤ hour))
    (hclock : out.hour = clockHour hour) : out.withMeridiem.hour = hour := by
  unfold clockHour at hclock
  rw [Int.tmod_eq_emod_of_nonneg hnonneg] at hclock
  rw [ParsedMockDateTime.withMeridiem,if_pos hmeridiem,hpm,hclock]
  dsimp only
  by_cases hhalf : 12 ≤ hour
  · rw [decide_eq_true hhalf,if_pos rfl]
    split_ifs <;> omega
  · rw [decide_eq_false hhalf,if_neg Bool.false_ne_true]
    split_ifs <;> omega

/-- The elements about the hour, which is put together once the text was read. -/
def FormatElement.isHour : FormatElement → Bool
  | .hour24 | .hour12 | .meridiem => true
  | _ => false

theorem hour_withMeridiem {d : CalendarTime} {tokens : List FormatElement}
    (hhour : NamesHour tokens) {e : FormatElement} (hmem : e ∈ tokens) (he : e.isHour = true) :
    (tokens.foldl (recorded d.toDateFields) {}).withMeridiem.hour = d.hour := by
  rcases hhour with ⟨h24,h12,hmeridiem⟩ | ⟨h24,h12,hmeridiem⟩ | ⟨h24,h12,hmeridiem⟩
  · cases e with
    | hour24 => exact absurd hmem h24
    | hour12 => exact absurd hmem h12
    | meridiem => exact absurd hmem hmeridiem
    | _ => cases he
  · have hkept : (tokens.foldl (recorded d.toDateFields) {}).hasMeridiem = false := by
      refine List.foldlRecOn (motive := fun out : ParsedMockDateTime => out.hasMeridiem = false)
        tokens (recorded d.toDateFields) rfl fun out hout a ha => ?_
      cases a with
      | hour12 => exact absurd ha h12
      | meridiem => exact absurd ha hmeridiem
      | _ => exact hout
    rw [ParsedMockDateTime.withMeridiem,hkept,if_neg Bool.false_ne_true]
    refine foldl_of_set (P := fun out : ParsedMockDateTime => out.hour = d.hour) h24
      (fun _ => rfl) (fun a ha out hout => ?_) _
    cases a with
    | hour12 => exact absurd ha h12
    | hour24 => rfl
    | _ => exact hout
  · refine withMeridiem_clockHour d.hour_le.1 d.hour_le.2 ?_ ?_ ?_
    · refine foldl_of_set (P := fun out : ParsedMockDateTime => out.hasMeridiem = true) h12
        (fun _ => rfl) (fun a _ out hout => ?_) _
      cases a with
      | hour12 | meridiem => rfl
      | _ => exact hout
    · refine foldl_of_set (P := fun out : ParsedMockDateTime => out.isPm = decide (12 ≤ d.hour))
        hmeridiem (fun _ => rfl) (fun a _ out hout => ?_) _
      cases a with
      | meridiem => rfl
      | _ => exact hout
    · refine foldl_of_set (P := fun out : ParsedMockDateTime => out.hour = clockHour d.hour) h12
        (fun _ => rfl) (fun a ha out hout => ?_) _
      cases a with
      | hour24 => exact absurd ha h24
      | hour12 => rfl
      | _ => exact hout

section Field

variable {d : DateFields} {out : ParsedMockDateTime} {e : FormatElement} (he : e.isHour = false)
include he

theorem sameIn_withMeridiem_iff :
    e.SameIn out.withMeridiem.toDateFields d ↔ e.SameIn out.toDateFields d := by
  obtain ⟨hour,heq⟩ := withMeridiem_eq out
  rw [heq]
  cases e with
  | hour24 | hour12 | meridiem => cases he
  | _ => exact Iff.rfl

theorem sameIn_recorded : e.SameIn (recorded d out e).toDateFields d := by
  cases e with
  | hour24 | hour12 | meridiem => cases he
  | literal c => trivial
  | _ => rfl

theorem FormatElement.SameIn.recorded (h : e.SameIn out.toDateFields d) (a : FormatElement) :
    e.SameIn (recorded d out a).toDateFields d := by
  cases e with
  | hour24 | hour12 | meridiem => cases he
  | literal c => trivial
  | _ => cases a <;> first | exact h | rfl

end Field

/-- Every field that an element of the format is about comes out as it was rendered. -/
theorem sameIn_withMeridiem {d : CalendarTime} {tokens : List FormatElement}
    (hhour : NamesHour tokens) {e : FormatElement} (hmem : e ∈ tokens) :
    e.SameIn (tokens.foldl (recorded d.toDateFields) {}).withMeridiem.toDateFields
      d.toDateFields := by
  cases he : e.isHour with
  | true =>
    have hsame := hour_withMeridiem (d := d) hhour hmem he
    cases e with
    | hour24 | hour12 | meridiem => exact hsame
    | _ => cases he
  | false =>
    rw [sameIn_withMeridiem_iff he]
    exact foldl_of_set (P := fun out : ParsedMockDateTime => e.SameIn out.toDateFields _) hmem
      (fun _ => sameIn_recorded he) (fun a _ _ hout => hout.recorded he a) _

/-- A date that a format renders is what the format parses, as far as its elements tell. -/
theorem parseWithMockFormat_renderWithMockFormat (currentYr : ℤ) (fmt : Text) (d : CalendarTime)
    (hyear2 : .year2 ∉ tokenizeDateFormat fmt)
    (hrr : .rrYear ∈ tokenizeDateFormat fmt → InRRWindow currentYr d.year)
    (hhour : NamesHour (tokenizeDateFormat fmt)) :
    ∃ p, parseWithMockFormat currentYr (renderWithMockFormat fmt d.toDateFields) fmt = some p ∧
      ∀ e ∈ tokenizeDateFormat fmt, e.SameIn p.toDateFields d.toDateFields := by
  refine ⟨_,?_,fun e hmem => sameIn_withMeridiem hhour hmem⟩
  have hread := parseElements_renderElements hyear2 hrr {} []
  rw [List.append_nil] at hread
  rw [parseWithMockFormat,renderWithMockFormat,hread,Option.bind_some,if_pos rfl]

/-- The leap day of 2024 in the twelfth hour of the night. -/
def leapDay : CalendarTime where
  year := 2024
  month := 2
  day := 29
  hour := 0
  minute := 5
  second := 9
  year_le := ⟨by decide,by decide⟩
  month_le := ⟨by decide,by decide⟩
  day_le := ⟨by decide,by decide⟩
  hour_le := ⟨by decide,by decide⟩
  minute_le := ⟨by decide,by decide⟩
  second_le := ⟨by decide,by decide⟩

theorem parse_render_leapDay :
    ∃ p, parseWithMockFormat 2026
        (renderWithMockFormat "DD-MON-RR HH.MI.SS AM".toList leapDay.toDateFields)
          "DD-MON-RR HH.MI.SS AM".toList = some p ∧
      ∀ e ∈ tokenizeDateFormat "DD-MON-RR HH.MI.SS AM".toList,
        e.SameIn p.toDateFields leapDay.toDateFields :=
  parseWithMockFormat_renderWithMockFormat 2026 "DD-MON-RR HH.MI.SS AM".toList leapDay (by decide)
    (fun _ => by decide) (by decide)

end DateFormat
end Marketlib
