import PfBlockerNG.AbpRules
import PfBlockerNG.Utf8

/-!
The capture guard of the feed parser, on the octets of a line, and the guard of the resolver, on
its characters: they capture the same lines.
-/

namespace PfBlockerNG.AbpCapture

open PfBlockerNG.ByteStrings
open PfBlockerNG.Strings
open PfBlockerNG.PyText
open PfBlockerNG.Utf8
open PfBlockerNG.AbpRules

/-- The octets of a literal of the source. -/
def literal (s : String) : Bytes := encode s.toList

def ehMarkers : List Bytes := ["##", "#@#", "#?#", "#%#", "#$#"].map literal

/-- The first of two occurrences; the one found before on a tie. -/
def keepFirst (line : Bytes) (first : Option (Nat × Nat)) (marker : Bytes) : Option (Nat × Nat) :=
  match strpos marker line with
  | none => first
  | some pos => match first with
    | none => some (pos, marker.length)
    | some found => if pos < found.1 then some (pos, marker.length) else some found

/-- The position and the length of the first marker. -/
def firstEhMarker (line : Bytes) : Option (Nat × Nat) := ehMarkers.foldl (keepFirst line) none

/-- `\p{Z}`. -/
def isSeparator (c : Char) : Bool :=
  let n := c.toNat
  n == 0x20 || n == 0xA0 || n == 0x1680 || (0x2000 ≤ n && n ≤ 0x200A) || n == 0x2028 ||
    n == 0x2029 || n == 0x202F || n == 0x205F || n == 0x3000

/-- `/\A(?:[\x{0009}-\x{000D}\x{001C}-\x{001F}\x{0085}]|\p{Z})/u`. -/
def matchesBlank (subject : Bytes) : Bool :=
  (decodeChar subject).any fun c =>
    (9 ≤ c.toNat && c.toNat ≤ 13) || (0x1C ≤ c.toNat && c.toNat ≤ 0x1F) || c.toNat == 0x85 ||
      isSeparator c

def cosmeticMask : Str :=
  "ABCDEFGHIJKLMNOPQRSTUVWXYZabcdefghijklmnopqrstuvwxyz0123456789._,~*-".toList

/-- The element-hiding branch. -/
def isEhLine (line : Bytes) : Bool :=
  match firstEhMarker line with
  | none => false
  | some (0, markerLen) =>
      let after := line.drop markerLen
      !after.isEmpty && !matchesBlank (firstChar after)
  | some (first, _) => first ≤ strspn (encode cosmeticMask) line

/-- `pfb_dnsbl_is_abp_rule_line`. -/
def pfbDnsblIsAbpRuleLine (line : Bytes) : Bool :=
  if (literal ",").isPrefixOf line then false
  else if (literal "||").isPrefixOf line || (literal "@@").isPrefixOf line then true
  else if (strpos (literal "#") line).isSome && isEhLine line then true
  else if (literal "/").isPrefixOf line && !(literal "//").isPrefixOf line then
    if (literal "/").isSuffixOf line && 1 < line.length then true
    else (strrpos (literal "/$") line).any fun marker => 0 < marker
  else false

/-! ### The first marker -/

theorem length_encode {p : Str} (hp : p.all isAscii = true) : (encode p).length = p.length := by
  induction p with
  | nil => rfl
  | cons c p ih =>
      rw [encode_cons, encodeChar_ascii (ascii_of_cons hp), List.singleton_append,
        List.length_cons, List.length_cons, ih]
      rw [List.all_cons, Bool.and_eq_true] at hp
      exact hp.2

/-- A marker that stands in the line: where, and how long it is. -/
def IsHit (line : Str) (hit : Nat × Nat) : Prop :=
  ∃ marker ∈ elementHidingMarkers, find marker line = some hit.1 ∧ hit.2 = marker.length

theorem marker_text {marker : Str} (h : marker ∈ elementHidingMarkers) :
    ∃ rest, marker = '#' :: rest ∧ ('#' :: rest).all isAscii = true := by
  simp only [elementHidingMarkers, List.mem_cons, List.not_mem_nil, or_false] at h
  rcases h with rfl | rfl | rfl | rfl | rfl <;> exact ⟨_, rfl, by decide⟩

theorem strpos_marker {marker : Str} (h : marker ∈ elementHidingMarkers) (line : Str) :
    strpos (encode marker) (encode line) = (find marker line).map (offset line) := by
  obtain ⟨rest, rfl, hascii⟩ := marker_text h
  exact strpos_encode (List.cons_ne_nil _ _) hascii line

theorem IsHit.lt_length {line : Str} {hit : Nat × Nat} (h : IsHit line hit) :
    hit.1 < line.length := by
  obtain ⟨marker, hmarker, hfind, -⟩ := h
  obtain ⟨rest, rfl, -⟩ := marker_text hmarker
  exact lt_length_of_find (List.cons_ne_nil _ _) hfind

/-- A hit as the parser of feeds has it. -/
def octetHit (line : Str) (hit : Nat × Nat) : Nat × Nat := (offset line hit.1, hit.2)

/-- The hit that `min()` keeps. -/
def earlier (best : Option (Nat × Nat)) (hit : Nat × Nat) : Option (Nat × Nat) :=
  match best with
  | none => some hit
  | some b => if hit.1 < b.1 ∨ (hit.1 = b.1 ∧ hit.2 < b.2) then some hit else some b

theorem firstMarker_eq (line : Str) : firstMarker line =
    (elementHidingMarkers.filterMap fun m => (find m line).map (·, m.length)).foldl earlier none :=
  rfl

/-- What the markers seen so far leave: a hit no longer than the markers to come. -/
def Kept (line : Str) (markers : List Str) (best : Option (Nat × Nat)) : Prop :=
  ∀ b ∈ best, IsHit line b ∧ ∀ m ∈ markers, b.2 ≤ m.length

theorem kept_earlier {line marker : Str} {markers : List Str} {best : Option (Nat × Nat)} {i : Nat}
    (hmarker : marker ∈ elementHidingMarkers) (hfind : find marker line = some i)
    (hlen : ∀ m ∈ markers, marker.length ≤ m.length) (hkept : Kept line (marker :: markers) best) :
    Kept line markers (earlier best (i, marker.length)) := by
  have hnew : Kept line markers (some (i, marker.length)) := by
    rintro b hb
    obtain rfl := Option.some.inj hb
    exact ⟨⟨marker, hmarker, hfind, rfl⟩, hlen⟩
  cases best with
  | none => exact hnew
  | some b =>
      rw [earlier]
      split
      · exact hnew
      · intro b' hb'
        obtain ⟨hhit, hle⟩ := hkept b' hb'
        exact ⟨hhit, fun m hm => hle m (List.mem_cons_of_mem _ hm)⟩

/-- One marker is weighed alike: a later marker that stands at the same place is not shorter. -/
theorem keepFirst_encode {line marker : Str} {markers : List Str} {best : Option (Nat × Nat)}
    {i : Nat} (hmarker : marker ∈ elementHidingMarkers) (hfind : find marker line = some i)
    (hkept : Kept line (marker :: markers) best) :
    keepFirst (encode line) (best.map (octetHit line)) (encode marker) =
      (earlier best (i, marker.length)).map (octetHit line) := by
  have hlen : (encode marker).length = marker.length := by
    obtain ⟨rest, rfl, hascii⟩ := marker_text hmarker
    exact length_encode hascii
  rw [keepFirst, strpos_marker hmarker, hfind]
  cases best with
  | none =>
      rw [hlen]
      rfl
  | some b =>
      obtain ⟨hhit, hle⟩ := hkept b rfl
      have hnew : IsHit line (i, marker.length) := ⟨marker, hmarker, hfind, rfl⟩
      have hi : i < line.length := hnew.lt_length
      have hbefore : (i < b.1 ∨ (i = b.1 ∧ marker.length < b.2)) ↔ i < b.1 :=
        or_iff_left fun h => Nat.not_lt.mpr (hle marker List.mem_cons_self) h.2
      simp only [Option.map_some, octetHit, offset_lt_iff hi hhit.lt_length, earlier, hbefore, hlen]
      rw [apply_ite (Option.map (octetHit line))]
      rfl

theorem foldl_markers (line : Str) {markers : List Str}
    (hmarkers : ∀ m ∈ markers, m ∈ elementHidingMarkers)
    (hlens : markers.Pairwise fun m n => m.length ≤ n.length) {best : Option (Nat × Nat)}
    (hkept : Kept line markers best) :
    ∃ first, Kept line [] first ∧
      (markers.filterMap fun m => (find m line).map (·, m.length)).foldl earlier best = first ∧
      (markers.map encode).foldl (keepFirst (encode line)) (best.map (octetHit line)) =
        first.map (octetHit line) := by
  induction markers generalizing best with
  | nil => exact ⟨best, hkept, rfl, rfl⟩
  | cons marker markers ih =>
      have hmarker := hmarkers marker List.mem_cons_self
      have hrest := fun m hm => hmarkers m (List.mem_cons_of_mem marker hm)
      obtain ⟨hshort, hlens⟩ := List.pairwise_cons.mp hlens
      rw [List.map_cons, List.foldl_cons, List.filterMap_cons]
      cases hfind : find marker line with
      | none =>
          have hskip : Kept line markers best := fun b hb =>
            ⟨(hkept b hb).1, fun m hm => (hkept b hb).2 m (List.mem_cons_of_mem _ hm)⟩
          rw [keepFirst, strpos_marker hmarker, hfind]
          exact ih hrest hlens hskip
      | some i =>
          rw [keepFirst_encode hmarker hfind hkept]
          exact ih hrest hlens (kept_earlier hmarker hfind hshort hkept)

/-- Both sides find the same first marker. -/
theorem firstEhMarker_encode (line : Str) :
    firstEhMarker (encode line) = (firstMarker line).map (octetHit line) ∧
      ∀ hit ∈ firstMarker line, IsHit line hit := by
  have hlens : elementHidingMarkers.Pairwise fun m n => m.length ≤ n.length := by decide
  have hstart : Kept line elementHidingMarkers none := fun b hb => by cases hb
  obtain ⟨first, hkept, hfirst, hoctets⟩ := foldl_markers line (fun _ hm => hm) hlens hstart
  rw [firstMarker_eq, hfirst]
  exact ⟨hoctets, fun hit hhit => (hkept hit hhit).1⟩

/-! ### The verdict -/

theorem matchesBlank_encodeChar (c : Char) :
    matchesBlank (String.utf8EncodeChar c) = isSpace c := by
  rw [matchesBlank, decodeChar_encodeChar, Option.any_some, isSeparator, isSpace, Bool.eq_iff_iff]
  simp only [Bool.or_eq_true, Bool.and_eq_true, decide_eq_true_eq, beq_iff_eq]
  omega

theorem mem_iff_toNat (c : Char) (s : Str) : c ∈ s ↔ c.toNat ∈ s.map Char.toNat :=
  (List.mem_map_of_injective fun _ _ h => Char.toNat_inj.mp h).symm

theorem mask_eq (c : Char) : cosmeticMask.contains c = isCosmeticPrefixChar c := by
  have hmask : cosmeticMask.map Char.toNat = List.range' 65 26 ++ (List.range' 97 26 ++
      (List.range' 48 10 ++ "._,~*-".toList.map Char.toNat)) := by
    decide
  have hupper : ('A' ≤ c ∧ c ≤ 'Z') ↔ 65 ≤ c.toNat ∧ c.toNat ≤ 90 := Iff.rfl
  have hlower : ('a' ≤ c ∧ c ≤ 'z') ↔ 97 ≤ c.toNat ∧ c.toNat ≤ 122 := Iff.rfl
  have hdigit : ('0' ≤ c ∧ c ≤ '9') ↔ 48 ≤ c.toNat ∧ c.toNat ≤ 57 := Iff.rfl
  rw [Bool.eq_iff_iff, List.contains_iff_mem, mem_iff_toNat, hmask, isCosmeticPrefixChar,
    isAsciiDigit]
  simp only [Bool.or_eq_true, Bool.and_eq_true, decide_eq_true_eq, List.contains_iff_mem,
    List.mem_append, List.mem_range'_1, hupper, hlower, hdigit, or_assoc,
    mem_iff_toNat c "._,~*-".toList]
  exact or_congr (by omega) (or_congr (by omega) (or_congr (by omega) Iff.rfl))

theorem drop_marker {line marker : Str} (h : marker <+: line) (hascii : marker.all isAscii = true) :
    (encode line).drop marker.length = encode (line.drop marker.length) := by
  obtain ⟨rest, rfl⟩ := h
  rw [encode_append, List.drop_left, ← length_encode hascii, List.drop_left]

/-- The element-hiding branches agree. -/
theorem isEhLine_encode (line : Str) : isEhLine (encode line) = isElementHiding line := by
  obtain ⟨hfirst, hhits⟩ := firstEhMarker_encode line
  rw [isEhLine, hfirst, isElementHiding]
  cases hmarker : firstMarker line with
  | none => rfl
  | some hit =>
      obtain ⟨i, len⟩ := hit
      have hhit := hhits _ hmarker
      have hlt := hhit.lt_length
      cases i with
      | zero =>
          obtain ⟨marker, hmem, hfind, rfl⟩ := hhit
          obtain ⟨rest, rfl, hascii⟩ := marker_text hmem
          have hstart := startsWith_of_find hfind
          rw [List.drop_zero] at hstart
          change (!((encode line).drop ('#' :: rest).length).isEmpty &&
            !matchesBlank (firstChar ((encode line).drop ('#' :: rest).length))) =
              (getElem? line ('#' :: rest).length).any fun c => !isSpace c
          rw [drop_marker hstart hascii, ← List.head?_drop]
          cases line.drop ('#' :: rest).length with
          | nil => rfl
          | cons c after =>
              obtain ⟨b, bs, hc, -⟩ := exists_encodeChar_eq_cons c
              rw [firstChar_encode, matchesBlank_encodeChar, encode_cons, hc]
              rfl
      | succ i =>
          have hpos : offset line (i + 1) ≠ 0 :=
            Nat.ne_of_gt (offset_lt (Nat.succ_pos i) (Nat.zero_lt_of_lt hlt))
          have hmask : cosmeticMask.all isAscii = true := by decide
          have hrun := offset_le_strspn_iff hmask line (i + 1)
          simp only [funext mask_eq] at hrun
          obtain ⟨n, hn⟩ := Nat.exists_eq_succ_of_ne_zero hpos
          rw [Option.map_some, octetHit]
          simp only [hn] at hrun ⊢
          rw [Bool.eq_iff_iff, decide_eq_true_eq]
          exact hrun

theorem hash_of_isElementHiding {line : Str} (h : isElementHiding line = true) :
    (strpos (literal "#") (encode line)).isSome = true := by
  rw [isElementHiding] at h
  split at h
  · cases h
  all_goals
    next hfirst =>
      obtain ⟨marker, hmem, hfind, -⟩ := (firstEhMarker_encode line).2 _ hfirst
      obtain ⟨rest, rfl, -⟩ := marker_text hmem
      have hstands := (find_isSome_iff _ line).mp (Option.isSome_of_eq_some hfind)
      have hhash : ['#'] <:+: line :=
        ((List.prefix_append ['#'] rest).isInfix).trans hstands
      rw [literal, strpos_encode (by decide) (by decide), Option.isSome_map]
      exact (find_isSome_iff _ line).mpr hhash

/-- The closing-slash shapes agree. -/
theorem isRegexShaped_encode (line : Str) :
    (if (literal "/").isPrefixOf (encode line) && !(literal "//").isPrefixOf (encode line) then
      if (literal "/").isSuffixOf (encode line) && 1 < (encode line).length then true
      else (strrpos (literal "/$") (encode line)).any fun marker => 0 < marker
    else false) = isRegexShaped line := by
  rw [isRegexShaped, literal, literal, literal, startsWith_encode (by decide),
    startsWith_encode (by decide), strrpos_encode (by decide) (by decide), Option.any_map]
  cases hstart : startsWith "/".toList line with
  | false => rfl
  | true =>
      obtain ⟨rest, rfl⟩ := List.isPrefixOf_iff_prefix.mp hstart
      have hoffset : (fun i => decide (0 < offset ("/".toList ++ rest) i)) =
          fun i => decide (0 < i) := by
        funext i
        exact decide_eq_decide.mpr (offset_pos_iff (List.cons_ne_nil _ _) i)
      have hlength : decide (1 < (encode ("/".toList ++ rest)).length) =
          decide (1 < ("/".toList ++ rest).length) := by
        have hrest := length_encode_pos_iff rest
        rw [encode_append, List.length_append, List.length_append, length_encode (by decide),
          decide_eq_decide]
        change 1 < 1 + _ ↔ 1 < 1 + _
        omega
      have hend : (encode "/".toList).isSuffixOf (encode ("/".toList ++ rest)) =
          endsWith "/".toList ("/".toList ++ rest) := endsWith_encode (by decide) _
      rw [hoffset, hlength, hend]
      cases startsWith "//".toList ("/".toList ++ rest) <;>
        cases endsWith "/".toList ("/".toList ++ rest) <;>
        cases decide (1 < ("/".toList ++ rest).length) <;> simp

/-- The two guards capture the same lines. -/
theorem pfbDnsblIsAbpRuleLine_encode (line : Str) :
    pfbDnsblIsAbpRuleLine (encode line) = isAbpRuleLine line := by
  have hhiding : ((strpos (literal "#") (encode line)).isSome && isEhLine (encode line)) =
      isElementHiding line := by
    rw [isEhLine_encode]
    cases h : isElementHiding line with
    | false => exact Bool.and_false _
    | true => rw [hash_of_isElementHiding h, Bool.and_true]
  rw [pfbDnsblIsAbpRuleLine, hhiding, isRegexShaped_encode, isAbpRuleLine, literal, literal,
    literal, startsWith_encode (by decide), startsWith_encode (by decide),
    startsWith_encode (by decide)]
  cases startsWith ",".toList line <;> cases startsWith "||".toList line <;>
    cases startsWith "@@".toList line <;> cases isElementHiding line <;> rfl

end PfBlockerNG.AbpCapture
