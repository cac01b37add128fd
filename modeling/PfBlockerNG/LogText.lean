import PfBlockerNG.TextFormats

/-!
Rows of the resolver's logs: fields off the wire are escaped so that they read back, and a row is
one line from which a reader of comma-separated records recovers its fields.
-/

namespace PfBlockerNG.LogText

open PfBlockerNG.TextFormats

/-- A Python string by its code points; that these end at 0x10FFFF is of no matter here. -/
abbrev Text := List Nat

/-! ### Escaping -/

/-- `str.encode("utf-8")` of one code point. -/
def utf8 (c : Nat) : List Nat :=
  if c < 0x80 then [c]
  else if c < 0x800 then [0xC0 + c / 64, 0x80 + c % 64]
  else if c < 0x10000 then [0xE0 + c / 4096, 0x80 + c / 64 % 64, 0x80 + c % 64]
  else [0xF0 + c / 262144, 0x80 + c / 4096 % 64, 0x80 + c / 64 % 64, 0x80 + c % 64]

/-- `chr(c).encode("latin-1" if c < 0x100 else "utf-8")`. -/
def octets (c : Nat) : List Nat := if c < 0x100 then [c] else utf8 c

/-- A backslash and the three decimal digits of an octet. -/
def decimalEscape (b : Nat) : Text := [0x5C, 0x30 + b / 100, 0x30 + b / 10 % 10, 0x30 + b % 10]

/-- The keys of `_LOG_TEXT_ESCAPE`. -/
def escapedPoints : List Nat :=
  (List.range 0x20 ++ [0x22, 0x26, 0x27, 0x3C, 0x3E, 0x5C, 0x7F] ++ List.range' 0x80 0x20 ++
    [0x061C, 0x200B, 0x200E, 0x200F, 0x2028, 0x2029] ++ List.range' 0x202A 5 ++
      List.range' 0x2066 4).filter fun c => c ∉ [0x0A, 0x0D]

/-- What `_LOG_TEXT_ESCAPE` makes of a code point. -/
def escape (c : Nat) : Text :=
  if c ∈ escapedPoints then (octets c).flatMap decimalEscape else [c]

/-- `_log_text`. -/
def logText (v : Text) : Text := v.flatMap escape

/-! ### Rows -/

/-- `.replace("\r\n", " ").replace("\r", " ").replace("\n", " ")`. -/
def oneLine (v : Text) : Text :=
  replace [0x0A] [0x20] (replace [0x0D] [0x20] (replace [0x0D, 0x0A] [0x20] v))

/-- What separates, encloses and ends: a comma, a double quote, and CR or LF. -/
def rfc4180 : Dialect Nat where
  separator := 0x2C
  quote := 0x22
  endsLine c := c = 0x0D || c = 0x0A
  separator_ne_quote := by decide
  separator_not_end := by decide
  quote_not_end := by decide

/-- Whether a `csv.writer` that quotes minimally and ends lines with LF quotes a field. -/
def needsQuotes (f : Text) : Bool := f.any fun c => c = 0x2C || c = 0x22 || c = 0x0A

def csvField (f : Text) : Text := if needsQuotes f then rfc4180.enclose f else f

/-- `csv.writer(buf, lineterminator="\n").writerow`: a row that would be empty though it has a
field is that field between quotes. -/
def writerow (fields : List Text) : Text :=
  let record := rfc4180.join (fields.map csvField)
  (if fields ≠ [] ∧ record = [] then rfc4180.enclose [] else record) ++ [0x0A]

/-- `_csv_row`, of what `"{}".format` makes of the fields. -/
def csvRow (fields : List Text) : Text := (writerow (fields.map oneLine)).dropLast

/-- A field of a log row: off the wire, or of the package's own. -/
inductive Field where
  | wire (v : Text)
  | own (v : Text)
  deriving DecidableEq, Repr

/-- What is given to `_csv_row` for a field. -/
def Field.text : Field → Text
  | .wire v => logText v
  | .own v => v

/-! ### Escaped text reads back -/

theorem escape_head {c : Nat} (h : c ∈ escapedPoints) : ∃ s, escape c = 0x5C :: s := by
  rw [escape, if_pos h, octets]
  split
  · exact ⟨_, rfl⟩
  · rw [utf8]
    split
    · exact ⟨_, rfl⟩
    · split
      · exact ⟨_, rfl⟩
      · split <;> exact ⟨_, rfl⟩

theorem backslash_mem : 0x5C ∈ escapedPoints := by decide

theorem decimalEscape_prefixCode : PrefixCode decimalEscape := by
  refine ⟨fun _ => List.cons_ne_nil _ _, fun a b hab => ?_⟩
  obtain ⟨_, hundreds⟩ := List.cons_prefix_cons.mp hab
  obtain ⟨hhundreds, htens⟩ := List.cons_prefix_cons.mp hundreds
  obtain ⟨htens, hunits⟩ := List.cons_prefix_cons.mp htens
  have hunits := (List.cons_prefix_cons.mp hunits).1
  omega

/-- The octets of no escaped code point begin those of another. -/
theorem octets_table : ∀ a ∈ escapedPoints, ∀ b ∈ escapedPoints,
    (octets a).isPrefixOf (octets b) = true → a = b := by
  decide +kernel

theorem escape_prefixCode : PrefixCode escape := by
  refine ⟨fun a ha => ?_, fun a b hab => ?_⟩
  · by_cases hmem : a ∈ escapedPoints
    · obtain ⟨s, hs⟩ := escape_head hmem
      rw [hs] at ha
      exact absurd ha (List.cons_ne_nil _ _)
    · rw [escape, if_neg hmem] at ha
      exact absurd ha (List.cons_ne_nil _ _)
  · have hhead : ∀ {c d : Nat} {s t : Text}, c :: s <+: d :: t → c = d :=
      fun h => (List.cons_prefix_cons.mp h).1
    by_cases ha : a ∈ escapedPoints
    · by_cases hb : b ∈ escapedPoints
      · rw [escape, if_pos ha, escape, if_pos hb] at hab
        exact octets_table a ha b hb
          (List.isPrefixOf_iff_prefix.mpr (decimalEscape_prefixCode.prefix_of_flatMap hab))
      · obtain ⟨s, hs⟩ := escape_head ha
        rw [hs, escape, if_neg hb] at hab
        exact absurd (hhead hab ▸ backslash_mem) hb
    · rw [escape, if_neg ha] at hab
      by_cases hb : b ∈ escapedPoints
      · obtain ⟨s, hs⟩ := escape_head hb
        rw [hs] at hab
        exact absurd (hhead hab ▸ backslash_mem) ha
      · rw [escape, if_neg hb] at hab
        exact hhead hab

theorem logText_injective : Function.Injective logText := escape_prefixCode.flatMap_injective

/-! ### Rows are one line -/

/-- The text with CR, LF and CR LF as one space each. -/
def foldLines : Text → Text
  | [] => []
  | 0x0D :: 0x0A :: s => 0x20 :: foldLines s
  | c :: s => (if c = 0x0D ∨ c = 0x0A then 0x20 else c) :: foldLines s

theorem oneLine_eq_foldLines (v : Text) : oneLine v = foldLines v := by
  simp only [oneLine, replace_symbol, List.map_map]
  induction v using foldLines.induct with
  | case1 => rfl
  | case2 s ih => simp [replace_pair_cons_cons, foldLines, ih]
  | case3 c s hpair ih =>
      have hne : ∀ s', c :: s ≠ 0x0D :: 0x0A :: s' := by
        rintro s' heq
        obtain ⟨hc, hs⟩ := List.cons.inj heq
        exact hpair s' hc hs
      rw [replace_pair_cons hne, List.map_cons, ih, foldLines]
      · by_cases hcr : c = 0x0D
        · simp [hcr]
        · simp [hcr]
      · exact hpair

theorem foldLines_oneLine {v : Text} {c : Nat} (h : c ∈ foldLines v) : c ≠ 0x0D ∧ c ≠ 0x0A := by
  induction v using foldLines.induct with
  | case1 => exact absurd h List.not_mem_nil
  | case2 s ih =>
      rw [foldLines] at h
      rcases List.mem_cons.mp h with rfl | h
      · exact ⟨by decide, by decide⟩
      · exact ih h
  | case3 d s hpair ih =>
      rw [foldLines] at h
      · rcases List.mem_cons.mp h with rfl | h
        · split
          next => exact ⟨by decide, by decide⟩
          next hd => exact not_or.mp hd
        · exact ih h
      · exact hpair

theorem renders_csvField {f : Text} (hf : ∀ c ∈ f, c ≠ 0x0D ∧ c ≠ 0x0A) :
    rfc4180.Renders (csvField f) f := by
  unfold csvField
  split
  next => exact Dialect.renders_enclose f
  next hquotes =>
    apply Dialect.renders_plain
    intro c hc
    have hplain : ¬(c = 0x2C ∨ c = 0x22 ∨ c = 0x0A) := by
      intro h
      exact hquotes (List.any_eq_true.mpr ⟨c, hc, by simpa [or_assoc] using h⟩)
    obtain ⟨hcomma, hquote, _⟩ : c ≠ 0x2C ∧ c ≠ 0x22 ∧ c ≠ 0x0A := by simpa using hplain
    exact ⟨hcomma, hquote, by simpa [rfc4180] using hf c hc⟩

theorem mem_csvField {c : Nat} {f : Text} (h : c ∈ csvField f) : c = 0x22 ∨ c ∈ f := by
  unfold csvField at h
  split at h
  · exact Dialect.mem_enclose h
  · exact .inr h

/-- The record of a row without its line end. -/
theorem csvRow_eq (fields : List Text) :
    csvRow fields =
      if fields ≠ [] ∧ rfc4180.join ((fields.map foldLines).map csvField) = [] then
        rfc4180.enclose []
      else rfc4180.join ((fields.map foldLines).map csvField) := by
  have hfold : fields.map oneLine = fields.map foldLines :=
    List.map_congr_left fun v _ => oneLine_eq_foldLines v
  rw [csvRow, hfold, writerow, List.dropLast_concat]
  simp

theorem mem_csvRow {c : Nat} {fields : List Text} (h : c ∈ csvRow fields) :
    c ≠ 0x0D ∧ c ≠ 0x0A := by
  rw [csvRow_eq] at h
  split at h
  · rcases Dialect.mem_enclose h with rfl | h
    · exact ⟨by decide, by decide⟩
    · exact absurd h List.not_mem_nil
  · rcases Dialect.mem_join h with rfl | ⟨w, hw, hc⟩
    · exact ⟨by decide, by decide⟩
    · obtain ⟨f, hf, rfl⟩ := List.mem_map.mp hw
      obtain ⟨v, _, rfl⟩ := List.mem_map.mp hf
      rcases mem_csvField hc with rfl | hc
      · exact ⟨by decide, by decide⟩
      · exact foldLines_oneLine hc

/-- A record that comes out empty is that of one empty field. -/
theorem eq_singleton_of_join_eq_nil {fields : List Text} (hne : fields ≠ [])
    (h : rfc4180.join (fields.map csvField) = []) : fields = [[]] := by
  match fields with
  | [] => exact absurd rfl hne
  | [f] =>
      have hf : csvField f = [] := h
      unfold csvField at hf
      split at hf
      · exact absurd hf (List.cons_ne_nil _ _)
      · rw [hf]
  | f :: g :: rest =>
      have hjoin := (List.append_eq_nil_iff.mp h).2
      exact absurd hjoin (List.cons_ne_nil _ _)

theorem read_csvRow {fields : List Text} (hne : fields ≠ []) :
    rfc4180.read .start (csvRow fields) = some (fields.map foldLines) := by
  have hne' : fields.map foldLines ≠ [] := fun h => hne (List.map_eq_nil_iff.mp h)
  rw [csvRow_eq]
  split
  next hempty => rw [eq_singleton_of_join_eq_nil hne' hempty.2, (Dialect.renders_enclose []).last]
  next =>
    refine Dialect.read_join ?_ hne'
    rw [List.forall₂_map_left_iff, List.forall₂_same]
    intro f hf
    obtain ⟨v, _, rfl⟩ := List.mem_map.mp hf
    exact renders_csvField fun c hc => foldLines_oneLine hc

/-- Escaped text determines what was escaped; a row is one line, from which a reader recovers
every field it was made of, its line ends folded. -/
theorem log_rows_unambiguous :
    Function.Injective logText ∧
      ∀ fields : List Field,
        (∀ c ∈ csvRow (fields.map Field.text), c ≠ 0x0D ∧ c ≠ 0x0A) ∧
          (fields ≠ [] → rfc4180.read .start (csvRow (fields.map Field.text)) =
            some (fields.map fun f => foldLines f.text)) := by
  refine ⟨logText_injective, fun fields => ⟨fun c hc => mem_csvRow hc, fun hne => ?_⟩⟩
  rw [read_csvRow fun h => hne (List.map_eq_nil_iff.mp h), List.map_map]
  rfl

/-- A query name with a quote and a comma, and a field with a line end. -/
theorem log_rows_unambiguous_query :
    rfc4180.read .start
        (csvRow ([Field.wire [0x61, 0x22, 0x2C], .own [0x0D, 0x0A]].map Field.text)) =
      some [[0x61, 0x5C, 0x30, 0x33, 0x34, 0x2C], [0x20]] :=
  (log_rows_unambiguous.2 _).2 (List.cons_ne_nil _ _)

/-- A row of no field is read as one of one field. -/
theorem log_row_empty :
    rfc4180.read .start (csvRow (([] : List Field).map Field.text)) ≠
      some (([] : List Field).map fun f => foldLines f.text) := by
  decide

end PfBlockerNG.LogText
