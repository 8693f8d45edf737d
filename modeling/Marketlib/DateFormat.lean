import Mathlib.Data.List.GetD
import Marketlib.TypedIntegers

/-! Dates as text by a format. A format is cut into elements, longest spelling first; a text is
parsed against the elements from the left, and a date is rendered element by element. -/

namespace Marketlib
namespace DateFormat

open Binding

/-- `DateFormatToken`, a literal with its character. -/
inductive FormatElement
  | year4 | year2 | rrYear | month | monthAbbrev | day | hour24 | hour12 | minute | second
  | meridiem | literal (c : Char)
  deriving DecidableEq

/-- The spellings of the elements, in the order in which they are tried. -/
def spellings : List (Text×FormatElement) :=
  [("YYYY".toList,.year4),("HH24".toList,.hour24),("HH12".toList,.hour12),("RR".toList,.rrYear),
    ("YY".toList,.year2),("MON".toList,.monthAbbrev),("MM".toList,.month),("DD".toList,.day),
    ("HH".toList,.hour12),("MI".toList,.minute),("SS".toList,.second),("AM".toList,.meridiem),
    ("PM".toList,.meridiem)]

def matchesAt (fmt keyword : Text) : Bool := (fmt.take keyword.length).map Char.toUpper = keyword

/-- The element that a format starts with, and how many characters spell it. -/
def elementAt (c : Char) (fmt : Text) : FormatElement×ℕ :=
  match spellings.find? fun s => matchesAt (c :: fmt) s.1 with
  | some s => (s.2,s.1.length)
  | none => (.literal c,1)

/-- The loop of `tokenize_date_format`, with so many characters of the last element left. -/
def tokenizeFrom : ℕ → Text → List FormatElement
  | _,[] => []
  | skip+1,_ :: fmt => tokenizeFrom skip fmt
  | 0,c :: fmt => (elementAt c fmt).1 :: tokenizeFrom ((elementAt c fmt).2-1) fmt

def tokenizeDateFormat (fmt : Text) : List FormatElement := tokenizeFrom 0 fmt

/-- The characters that an element takes up in a text. -/
def FormatElement.width : FormatElement → ℕ
  | .year4 => 4
  | .monthAbbrev => 3
  | .literal _ => 1
  | _ => 2

def textWidth (tokens : List FormatElement) : ℕ := (tokens.map FormatElement.width).sum

@[simp] theorem textWidth_nil : textWidth [] = 0 := rfl

@[simp] theorem textWidth_cons (e : FormatElement) (tokens : List FormatElement) :
    textWidth (e :: tokens) = e.width+textWidth tokens := rfl

theorem FormatElement.width_pos (e : FormatElement) : 0 < e.width := by
  cases e <;> exact Nat.succ_pos _

/-- No element is spelt with more than twice the characters it takes up, nor with fewer. -/
theorem spelling_width {s : Text×FormatElement} (hs : s ∈ spellings) :
    s.2.width ≤ s.1.length ∧ s.1.length ≤ 2*s.2.width := by
  revert s
  decide

theorem length_le_of_matchesAt {fmt keyword : Text} (h : matchesAt fmt keyword = true) :
    keyword.length ≤ fmt.length := by
  have hlength := congrArg List.length (of_decide_eq_true h)
  rw [List.length_map,List.length_take] at hlength
  omega

theorem elementAt_width (c : Char) (fmt : Text) :
    (elementAt c fmt).1.width ≤ (elementAt c fmt).2 ∧
      (elementAt c fmt).2 ≤ 2*(elementAt c fmt).1.width ∧
        (elementAt c fmt).2 ≤ fmt.length+1 := by
  unfold elementAt
  split
  case h_1 s hs =>
    obtain ⟨hlower,hupper⟩ := spelling_width (List.mem_of_find?_eq_some hs)
    have hmatch := List.find?_some hs
    exact ⟨hlower,hupper,length_le_of_matchesAt hmatch⟩
  case h_2 => exact ⟨le_rfl,Nat.le_succ 1,Nat.le_add_left 1 _⟩

/-- What the elements take up against the characters that are left to spell them. -/
theorem textWidth_tokenizeFrom {skip : ℕ} {fmt : Text} (hskip : skip ≤ fmt.length) :
    skip+textWidth (tokenizeFrom skip fmt) ≤ fmt.length ∧
      fmt.length ≤ skip+2*textWidth (tokenizeFrom skip fmt) := by
  induction fmt generalizing skip with
  | nil =>
    rw [List.length_nil] at hskip
    simp [tokenizeFrom,Nat.le_zero.mp hskip]
  | cons c fmt ih =>
    rw [List.length_cons] at hskip ⊢
    cases skip with
    | zero =>
      obtain ⟨hlower,hupper,hlength⟩ := elementAt_width c fmt
      have hpos := (elementAt c fmt).1.width_pos
      have hrest := ih (show (elementAt c fmt).2-1 ≤ fmt.length by omega)
      rw [tokenizeFrom,textWidth_cons]
      omega
    | succ skip =>
      have hrest := ih (Nat.le_of_succ_le_succ hskip)
      rw [tokenizeFrom]
      omega

theorem textWidth_le (fmt : Text) : textWidth (tokenizeDateFormat fmt) ≤ fmt.length := by
  have h := (textWidth_tokenizeFrom (Nat.zero_le fmt.length)).1
  rwa [Nat.zero_add] at h

theorem le_textWidth (fmt : Text) : fmt.length ≤ 2*textWidth (tokenizeDateFormat fmt) := by
  have h := (textWidth_tokenizeFrom (Nat.zero_le fmt.length)).2
  rwa [Nat.zero_add] at h

example : tokenizeDateFormat "hh24HH".toList = [.hour24,.hour12] := by decide

/-- `mock_rr_year`: the century that two digits of a year belong to. -/
def mockRRYear (rr currentYr : ℤ) : ℤ :=
  let curCentury := currentYr.tdiv 100
  let curYy := currentYr.tmod 100
  let century :=
    if rr ≤ 49 then if curYy ≤ 49 then curCentury else curCentury+1
    else if curYy ≤ 49 then curCentury-1 else curCentury
  century*100+rr

/-- The six numbers of a date with its time. -/
structure DateFields where
  (year month day hour minute second : ℤ)
  deriving DecidableEq

structure ParsedMockDateTime extends DateFields where
  year := 1970
  month := 1
  day := 1
  hour := 0
  minute := 0
  second := 0
  isPm : Bool := false
  hasMeridiem : Bool := false
  deriving DecidableEq

def monthNames : List Text :=
  ["JAN".toList,"FEB".toList,"MAR".toList,"APR".toList,"MAY".toList,"JUN".toList,"JUL".toList,
    "AUG".toList,"SEP".toList,"OCT".toList,"NOV".toList,"DEC".toList]

/-- `read_digits`: the number and what follows it. -/
def readDigits (width : ℕ) (text : Text) : Option (ℤ×Text) :=
  if text.length < width then none
  else (ofDigits (text.take width)).map fun value => ((value : ℤ),text.drop width)

/-- One turn of the loop of `parse_with_mock_format`. -/
def parseElement (currentYr : ℤ) (out : ParsedMockDateTime) (text : Text) :
    FormatElement → Option (ParsedMockDateTime×Text)
  | .year4 => (readDigits 4 text).map fun r => ({ out with year := r.1 },r.2)
  | .year2 => (readDigits 2 text).map fun r => ({ out with year := 2000+r.1 },r.2)
  | .rrYear => (readDigits 2 text).map fun r => ({ out with year := mockRRYear r.1 currentYr },r.2)
  | .month => (readDigits 2 text).map fun r => ({ out with month := r.1 },r.2)
  | .monthAbbrev =>
    if text.length < 3 then none
    else (monthNames.idxOf? ((text.take 3).map Char.toUpper)).map fun m : ℕ =>
      ({ out with month := (m : ℤ)+1 },text.drop 3)
  | .day => (readDigits 2 text).map fun r => ({ out with day := r.1 },r.2)
  | .hour24 => (readDigits 2 text).map fun r => ({ out with hour := r.1 },r.2)
  | .hour12 =>
    (readDigits 2 text).map fun r => ({ out with hour := r.1, hasMeridiem := true },r.2)
  | .minute => (readDigits 2 text).map fun r => ({ out with minute := r.1 },r.2)
  | .second => (readDigits 2 text).map fun r => ({ out with second := r.1 },r.2)
  | .meridiem =>
    match text with
    | c₀ :: c₁ :: rest =>
      if c₁.toUpper ≠ 'M' ∨ c₀.toUpper ≠ 'A' ∧ c₀.toUpper ≠ 'P' then none
      else some ({ out with isPm := c₀.toUpper = 'P', hasMeridiem := true },rest)
    | _ => none
  | .literal c =>
    match text with
    | c' :: rest => if c' = c then some (out,rest) else none
    | [] => none

def parseElements (currentYr : ℤ) :
    List FormatElement → ParsedMockDateTime → Text → Option (ParsedMockDateTime×Text)
  | [],out,text => some (out,text)
  | e :: tokens,out,text =>
    (parseElement currentYr out text e).bind fun r => parseElements currentYr tokens r.1 r.2

/-- The hour that a 12-hour clock stands for. -/
def ParsedMockDateTime.withMeridiem (out : ParsedMockDateTime) : ParsedMockDateTime :=
  if out.hasMeridiem then
    { out with hour :=
        if out.isPm then if out.hour = 12 then 12 else out.hour+12
        else if out.hour = 12 then 0 else out.hour }
  else out

def parseWithMockFormat (currentYr : ℤ) (text fmt : Text) : Option ParsedMockDateTime :=
  (parseElements currentYr (tokenizeDateFormat fmt) {} text).bind fun r =>
    if r.2 = [] then some r.1.withMeridiem else none

def zeroPadMock (value : ℤ) (width : ℕ) : Text := (decimal value).leftpad width '0'

/-- The hour on the face of a clock. -/
def clockHour (hour : ℤ) : ℤ :=
  let h := hour.tmod 12
  if h = 0 then 12 else h

/-- One turn of the loop of `render_with_mock_format`. -/
def renderElement (d : DateFields) : FormatElement → Text
  | .year4 => zeroPadMock d.year 4
  | .year2 => zeroPadMock (d.year.tmod 100) 2
  | .rrYear => zeroPadMock (d.year.tmod 100) 2
  | .month => zeroPadMock d.month 2
  | .monthAbbrev =>
    if 1 ≤ d.month ∧ d.month ≤ 12 then monthNames.getD (d.month.toNat-1) [] else "???".toList
  | .day => zeroPadMock d.day 2
  | .hour24 => zeroPadMock d.hour 2
  | .hour12 => zeroPadMock (clockHour d.hour) 2
  | .minute => zeroPadMock d.minute 2
  | .second => zeroPadMock d.second 2
  | .meridiem => if d.hour < 12 then "AM".toList else "PM".toList
  | .literal c => [c]

def renderWithMockFormat (fmt : Text) (d : DateFields) : Text :=
  (tokenizeDateFormat fmt).flatMap (renderElement d)

example : renderWithMockFormat "DD-MON-RR HH.MI.SS AM".toList ⟨2024,2,29,0,5,9⟩ =
    "29-FEB-24 12.05.09 AM".toList := by decide

/-! ### How long a text is -/

theorem length_of_readDigits {width : ℕ} {text : Text} {r : ℤ×Text}
    (h : readDigits width text = some r) : text.length = r.2.length+width := by
  unfold readDigits at h
  split_ifs at h with hshort
  obtain ⟨n,-,rfl⟩ := Option.map_eq_some_iff.mp h
  rw [List.length_drop]
  omega

theorem length_of_readDigits_map {α : Type} {width : ℕ} {text : Text} {f : ℤ×Text → α}
    {r : α×Text} (h : (readDigits width text).map (fun r => (f r,r.2)) = some r) :
    text.length = r.2.length+width := by
  obtain ⟨q,hq,rfl⟩ := Option.map_eq_some_iff.mp h
  exact length_of_readDigits hq

/-- An element that is parsed takes up its width. -/
theorem length_of_parseElement {currentYr : ℤ} {out : ParsedMockDateTime} {text : Text}
    {e : FormatElement} {r : ParsedMockDateTime×Text}
    (h : parseElement currentYr out text e = some r) : text.length = r.2.length+e.width := by
  cases e with
  | monthAbbrev =>
    rw [parseElement] at h
    split_ifs at h with hshort
    obtain ⟨m,-,rfl⟩ := Option.map_eq_some_iff.mp h
    rw [List.length_drop,FormatElement.width]
    omega
  | meridiem =>
    match text with
    | c₀ :: c₁ :: rest =>
      rw [parseElement] at h
      split_ifs at h
      cases h
      rfl
  | literal c =>
    cases text with
    | nil => cases h
    | cons c' rest =>
      rw [parseElement] at h
      split_ifs at h
      cases h
      rfl
  | year4 | year2 | rrYear | month | day | hour24 | hour12 | minute | second =>
    exact length_of_readDigits_map h

theorem length_of_parseElements {currentYr : ℤ} {tokens : List FormatElement}
    {out : ParsedMockDateTime} {text : Text} {r : ParsedMockDateTime×Text}
    (h : parseElements currentYr tokens out text = some r) :
    text.length = r.2.length+textWidth tokens := by
  induction tokens generalizing out text with
  | nil => cases h; rfl
  | cons e tokens ih =>
    obtain ⟨q,hq,hrest⟩ := Option.bind_eq_some_iff.mp h
    rw [length_of_parseElement hq,ih hrest,textWidth_cons]
    omega

/-- A text that a format parses is as long as the elements of the format ask for. -/
theorem length_of_parseWithMockFormat {currentYr : ℤ} {text fmt : Text} {p : ParsedMockDateTime}
    (h : parseWithMockFormat currentYr text fmt = some p) :
    text.length = textWidth (tokenizeDateFormat fmt) := by
  obtain ⟨r,hr,hrest⟩ := Option.bind_eq_some_iff.mp h
  split_ifs at hrest with hnil
  rw [length_of_parseElements hr,hnil,List.length_nil,Nat.zero_add]

theorem le_length_zeroPadMock (value : ℤ) (width : ℕ) :
    width ≤ (zeroPadMock value width).length := by
  rw [zeroPadMock,List.length_leftpad]
  exact le_max_left _ _

theorem length_of_mem_monthNames {name : Text} (h : name ∈ monthNames) : name.length = 3 := by
  revert name
  decide

/-- An element is rendered in its width or more. -/
theorem width_le_length_renderElement (d : DateFields) (e : FormatElement) :
    e.width ≤ (renderElement d e).length := by
  cases e with
  | monthAbbrev =>
    rw [renderElement]
    split_ifs with hmonth
    · have hlt : d.month.toNat-1 < monthNames.length := by
        rw [show monthNames.length = 12 from rfl]
        omega
      rw [List.getD_eq_getElem _ _ hlt,length_of_mem_monthNames (List.getElem_mem hlt)]
      rfl
    · rfl
  | meridiem =>
    rw [renderElement]
    split_ifs <;> rfl
  | literal c => rfl
  | year4 | year2 | rrYear | month | day | hour24 | hour12 | minute | second =>
    exact le_length_zeroPadMock _ _

theorem le_length_renderWithMockFormat (fmt : Text) (d : DateFields) :
    textWidth (tokenizeDateFormat fmt) ≤ (renderWithMockFormat fmt d).length := by
  unfold renderWithMockFormat
  induction tokenizeDateFormat fmt with
  | nil => exact le_rfl
  | cons e tokens ih =>
    rw [textWidth_cons,List.flatMap_cons,List.length_append]
    exact Nat.add_le_add (width_le_length_renderElement d e) ih

end DateFormat
end Marketlib
