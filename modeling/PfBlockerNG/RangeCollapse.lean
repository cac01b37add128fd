import PfBlockerNG.CidrSubtract
import PfBlockerNG.ShellText

/-!
Crowded /24 ranges of one deny list: the rows that begin with the octets of a crowded range go, one
/24 row takes their place.
-/

namespace PfBlockerNG.RangeCollapse

open PfBlockerNG.Strings
open PfBlockerNG.PyText
open PfBlockerNG.IpText
open PfBlockerNG.ShellText
open PfBlockerNG.CidrSubtract

/-- `cut -d '.' -f 1-3`. -/
def octetPrefix (l : Str) : Str := joinDots ((splitDots l).take 3)

def pfbIsOctetPrefix (s : Str) : Bool := s ≠ [] && s.all fun c => isAsciiDigit c || c == '.'

/-- `grep "$(pfb_anchor_octet_pattern ip)"`. -/
def rowsOf (ip : Str) (rows : List Str) : List Str := rows.filter (startsWith ip)

/-- The octets more than `limit` rows begin with. -/
def crowded (limit : Nat) (rows : List Str) : List Str :=
  (rows.map octetPrefix).dedup.filter fun ip => limit < (rows.map octetPrefix).count ip

section Model

variable (order : List Str → List Str)

/-- `process255()`; `order` is the order `for (i in a)` runs in. -/
def process255 (rows : List Str) : List Str :=
  let data255 := order (crowded 253 rows)
  if data255 = [] then rows
  else
    let ips := data255.filter pfbIsOctetPrefix
    awkExclude (ips.flatMap fun ip => rowsOf (ip ++ ['.']) rows) rows ++
      ips.map (· ++ ".0/24".toList)

/-- The range is not one of a selected country. -/
def isOffender (geoip : Str → Str) (cc ip : Str) : Bool :=
  geoip ip = [] || !decide (geoip ip <:+: cc)

/-- The deny list after `reputation_max()`. -/
def reputationMax (geoip : Str → Str) (cc : Str) (max : Nat) (ccblack : Str) (rows : List Str) :
    List Str :=
  let tempfile := sortU rows
  let dupfile := (((order (crowded max tempfile)).filter pfbIsOctetPrefix).filter
    (isOffender geoip cc)).map (· ++ ['.'])
  if dupfile = [] then rows
  else if ccblack = "block".toList then
    sortU (awkExclude (dupfile.flatMap fun ip => rowsOf ip tempfile) tempfile ++
      dupfile.map (· ++ "0/24".toList))
  else tempfile

end Model

section Ranges

variable (T : Ipv6Text)

/-- Every row is an IPv4 host or CIDR. -/
def Ipv4Rows (rows : List Str) : Prop := ∀ l ∈ rows, ∃ b, entryOf T l = some b ∧ b.width = 32

/-- The /24 rows of the ranges. -/
def rangeRows (ranges : List Str) : List Str := ranges.map (· ++ ".0/24".toList)

/-- The new list covers what the old one did, and more only within the ranges, each of which it
holds as one row. -/
def Collapses (ranges rows rows' : List Str) : Prop :=
  (∀ a, Covers T rows a → Covers T rows' a) ∧
    (∀ a, Covers T rows' a → Covers T rows a ∨ Covers T (rangeRows ranges) a) ∧
    ∀ ip ∈ ranges, rows'.countP (octetPrefix · = ip) = 1

/-- What a row wider than its /24 covers lies in the ranges or in the rows outside of them. -/
def WideCovered (ranges rows : List Str) : Prop :=
  ∀ l ∈ rows, ∀ b, entryOf T l = some b → b.net.length < 24 → octetPrefix l ∈ ranges →
    ∀ a, b.Contains a → Covers T (rows.filter (octetPrefix · ∉ ranges)) a ∨
      Covers T (rangeRows ranges) a

end Ranges

theorem dot_not_mem_octetText (n : Nat) : '.' ∉ octetText n := fun hmem =>
  absurd (List.all_eq_true.mp (octetText_clean n).1 _ hmem) (by decide)

/-- The text and the bits of an IPv4 row. -/
theorem ipv4_row {T : Ipv6Text} {l : Str} {b : Block} (h : entryOf T l = some b)
    (hwidth : b.width = 32) :
    ∃ i j k m rest, i < 256 ∧ j < 256 ∧ k < 256 ∧ m < 256 ∧ '.' ∉ rest ∧
      l = quadText [i, j, k] ++ '.' :: rest ∧
      b.net = (octetBits [i, j, k, m]).take b.net.length := by
  have hquad : ∀ {t : Str} {a : Addr}, hostOf T t = some a → a.length = 32 →
      ∃ i j k m, i < 256 ∧ j < 256 ∧ k < 256 ∧ m < 256 ∧
        t = quadText [i, j, k] ++ '.' :: octetText m ∧ a = octetBits [i, j, k, m] := by
    intro t a ha hlen
    obtain ⟨octets, hos, rfl⟩ := Option.map_eq_some_iff.mp ha
    rcases inetPton_eq_some hos with ⟨hread, -⟩ | ⟨hpton, -⟩
    · obtain ⟨hfour, hlt, hsplit⟩ := readQuad_eq_some hread
      match octets, hfour, hlt, hsplit with
      | [i, j, k, m], _, hlt, hsplit =>
          refine ⟨i, j, k, m, hlt i (by simp), hlt j (by simp), hlt k (by simp), hlt m (by simp),
            ?_, rfl⟩
          have hjoin : joinDots (splitDots t) = t := List.intercalate_splitOn '.'
          rw [← hjoin, hsplit]
          simp [quadText, joinDots, List.intercalate]
    · rw [length_octetBits, T.length_of_pton hpton] at hlen
      omega
  by_cases hslash : '/' ∈ l
  · rw [entryOf_of_subnet hslash] at h
    obtain ⟨net, mask, n, a, hpart, hmask, ha, hle, hlen, hnet⟩ := subnetOf_eq_some_iff.mp h
    obtain ⟨i, j, k, m, hi, hj, hk, hm, rfl, rfl⟩ := hquad ha (hlen.symm.trans hwidth)
    obtain ⟨rfl, -⟩ := (partition_eq_found_iff _ _ _ _).mp hpart
    refine ⟨i, j, k, m, octetText m ++ '/' :: mask, hi, hj, hk, hm, ?_, by simp, ?_⟩
    · rw [List.mem_append, List.mem_cons, not_or, not_or]
      refine ⟨dot_not_mem_octetText m, by decide, fun hmem => ?_⟩
      exact absurd ((readMask_eq_some hmask).2 _ hmem) (by decide)
    · rw [hnet, List.length_take, Nat.min_eq_left hle]
  · rw [entryOf_of_bare hslash] at h
    obtain ⟨a, ha, rfl⟩ := Option.map_eq_some_iff.mp h
    obtain ⟨i, j, k, m, hi, hj, hk, hm, rfl, rfl⟩ := hquad ha hwidth
    exact ⟨i, j, k, m, octetText m, hi, hj, hk, hm, dot_not_mem_octetText m, rfl,
      (List.take_length).symm⟩

theorem splitDots_quadText {octets : List Nat} (hne : octets ≠ []) :
    splitDots (quadText octets) = octets.map octetText := by
  refine List.splitOn_intercalate '.' (fun s hs => ?_) (by simpa using hne)
  obtain ⟨n, -, rfl⟩ := List.mem_map.mp hs
  exact dot_not_mem_octetText n

theorem splitDots_row (i j k : Nat) (rest : Str) :
    splitDots (quadText [i, j, k] ++ '.' :: rest) =
      octetText i :: octetText j :: octetText k :: splitDots rest := by
  unfold splitDots
  rw [List.splitOn_append_cons_self]
  have hquad : splitDots (quadText [i, j, k]) = [i, j, k].map octetText :=
    splitDots_quadText (by simp)
  rw [splitDots] at hquad
  rw [hquad]
  rfl

theorem octetPrefix_row (i j k : Nat) (rest : Str) :
    octetPrefix (quadText [i, j, k] ++ '.' :: rest) = quadText [i, j, k] := by
  rw [octetPrefix, splitDots_row]
  rfl

/-- The octets of rows are digits and dots. -/
theorem pfbIsOctetPrefix_quadText (i j k : Nat) : pfbIsOctetPrefix (quadText [i, j, k]) = true := by
  have hne : quadText [i, j, k] ≠ [] := by simp [quadText, joinDots, List.intercalate]
  rw [pfbIsOctetPrefix, decide_eq_true hne, Bool.true_and, List.all_eq_true]
  intro c hc
  rcases mem_intercalate hc with rfl | ⟨s, hs, hcs⟩
  · decide
  · obtain ⟨n, -, rfl⟩ := List.mem_map.mp hs
    rw [List.all_eq_true.mp (octetText_clean n).1 c hcs, Bool.true_or]

theorem octetBits_range (i j k m : Nat) :
    octetBits [i, j, k] <+: octetBits [i, j, k, m] ∧ (octetBits [i, j, k]).length = 24 :=
  ⟨⟨octetBits [m], (@List.flatMap_append _ _ [i, j, k] [m] _).symm⟩, length_octetBits _⟩

section Collapse

variable {T : Ipv6Text}

/-- The block of a range. -/
theorem entryOf_range {i j k : Nat} (hi : i < 256) (hj : j < 256) (hk : k < 256) :
    ∃ b, entryOf T (quadText [i, j, k] ++ ".0/24".toList) = some b ∧ b.width = 32 ∧
      b.net = octetBits [i, j, k] := by
  have htext : quadText [i, j, k] ++ ".0/24".toList =
      quadText [i, j, k, 0] ++ '/' :: "24".toList := by
    have hzero : octetText 0 = ['0'] := by decide
    simp [quadText, joinDots, List.intercalate, hzero]
  have hhost : hostOf T (quadText [i, j, k, 0]) = some (octetBits [i, j, k, 0]) := by
    rw [hostOf, inetPton, readQuad_quadText rfl (by simp [hi, hj, hk])]
    rfl
  have hpart : partition '/' (quadText [i, j, k, 0] ++ '/' :: "24".toList) =
      (quadText [i, j, k, 0], true, "24".toList) :=
    (partition_eq_found_iff _ _ _ _).mpr ⟨rfl, not_mem_of_hostOf hhost (by decide)⟩
  have hlen : (octetBits [i, j, k, 0]).length = 32 := length_octetBits _
  obtain ⟨hbegin, hrange⟩ := octetBits_range i j k 0
  refine ⟨⟨32, octetBits [i, j, k], hrange.trans_le (by decide)⟩, ?_, rfl, rfl⟩
  rw [htext, entryOf_of_subnet (by simp)]
  refine subnetOf_eq_some_iff.mpr ⟨_, _, 24, _, hpart, by decide, hhost, by rw [hlen]; decide,
    hlen.symm, ?_⟩
  exact (List.prefix_iff_eq_take.mp hbegin).trans (by rw [hrange])

/-- A row that is no wider than its range covers addresses of the range only. -/
theorem covers_range_of_narrow {l : Str} {b : Block} (h : entryOf T l = some b)
    (hwidth : b.width = 32) (hnarrow : 24 ≤ b.net.length) {a : Addr} (ha : b.Contains a) :
    Covers T [octetPrefix l ++ ".0/24".toList] a := by
  obtain ⟨i, j, k, m, rest, hi, hj, hk, -, -, rfl, hnet⟩ := ipv4_row h hwidth
  obtain ⟨r, hr, hrwidth, hrnet⟩ := entryOf_range (T := T) hi hj hk
  refine ⟨_, List.mem_singleton_self _, r, ?_, ha.1.trans (hwidth.trans hrwidth.symm), ?_⟩
  · rw [octetPrefix_row]
    exact hr
  · refine List.IsPrefix.trans ?_ ha.2
    obtain ⟨hbegin, hlen⟩ := octetBits_range i j k m
    rw [hrnet, hnet]
    exact List.prefix_take_iff.mpr ⟨hbegin, hlen.trans_le hnarrow⟩

/-- The octets of a row pick the rows that begin with them. -/
theorem rowsOf_octets {rows : List Str} (hrows : Ipv4Rows T rows) {l : Str} (hl : l ∈ rows) :
    rowsOf (octetPrefix l ++ ['.']) rows = rows.filter (octetPrefix · = octetPrefix l) := by
  obtain ⟨b, hb, hwidth⟩ := hrows l hl
  obtain ⟨i, j, k, m, rest, -, -, -, -, -, rfl, -⟩ := ipv4_row hb hwidth
  rw [octetPrefix_row]
  refine List.filter_congr fun l' hl' => ?_
  rw [Bool.eq_iff_iff, startsWith, List.isPrefixOf_iff_prefix, decide_eq_true_eq]
  constructor
  · rintro ⟨rest', rfl⟩
    rw [List.append_assoc, List.singleton_append, octetPrefix_row]
  · intro heq
    obtain ⟨b', hb', hwidth'⟩ := hrows l' hl'
    obtain ⟨i', j', k', m', rest', -, -, -, -, -, rfl, -⟩ := ipv4_row hb' hwidth'
    rw [octetPrefix_row] at heq
    rw [heq]
    exact ⟨rest', by simp⟩

/-- The set difference drops the rows of the ranges. -/
theorem awkExclude_ranges {rows : List Str} (hrows : Ipv4Rows T rows) {ranges : List Str}
    (hne : ranges ≠ []) (hranges : ∀ ip ∈ ranges, ip ∈ rows.map octetPrefix) :
    awkExclude (ranges.flatMap fun ip => rowsOf (ip ++ ['.']) rows) rows =
      rows.filter (octetPrefix · ∉ ranges) := by
  have hmem : ∀ l, l ∈ ranges.flatMap (fun ip => rowsOf (ip ++ ['.']) rows) ↔
      l ∈ rows ∧ octetPrefix l ∈ ranges := by
    intro l
    rw [List.mem_flatMap]
    constructor
    · rintro ⟨ip, hip, hl⟩
      obtain ⟨l', hl', rfl⟩ := List.mem_map.mp (hranges ip hip)
      rw [rowsOf_octets hrows hl', List.mem_filter, decide_eq_true_eq] at hl
      exact ⟨hl.1, hl.2 ▸ hip⟩
    · rintro ⟨hl, hip⟩
      refine ⟨_, hip, ?_⟩
      rw [rowsOf_octets hrows hl, List.mem_filter, decide_eq_true_eq]
      exact ⟨hl, rfl⟩
  rw [awkExclude, if_neg]
  · refine List.filter_congr fun l hl => ?_
    rw [Bool.eq_iff_iff, decide_eq_true_eq, decide_eq_true_eq, hmem, not_and]
    exact ⟨fun h => h hl, fun h _ => h⟩
  · obtain ⟨ip, hip⟩ := List.exists_mem_of_ne_nil _ hne
    obtain ⟨l, hl, rfl⟩ := List.mem_map.mp (hranges ip hip)
    exact List.ne_nil_of_mem ((hmem l).mpr ⟨hl, hip⟩)

theorem octetPrefix_range {rows : List Str} (hrows : Ipv4Rows T rows) {ip : Str}
    (hip : ip ∈ rows.map octetPrefix) :
    octetPrefix (ip ++ ".0/24".toList) = ip ∧ pfbIsOctetPrefix ip = true := by
  obtain ⟨l, hl, rfl⟩ := List.mem_map.mp hip
  obtain ⟨b, hb, hwidth⟩ := hrows l hl
  obtain ⟨i, j, k, m, rest, -, -, -, -, -, rfl, -⟩ := ipv4_row hb hwidth
  rw [octetPrefix_row]
  exact ⟨octetPrefix_row i j k "0/24".toList, pfbIsOctetPrefix_quadText i j k⟩

theorem mem_crowded {limit : Nat} {rows : List Str} {ip : Str} (h : ip ∈ crowded limit rows) :
    ip ∈ rows.map octetPrefix :=
  List.mem_dedup.mp (List.mem_filter.mp h).1

theorem nodup_crowded (limit : Nat) (rows : List Str) : (crowded limit rows).Nodup :=
  (List.nodup_dedup _).filter _

/-- The rows outside the ranges with one row for each range collapse the ranges exactly when no
row wider than its range loses an address. -/
theorem collapses_iff {rows base ranges rows' : List Str} (hrows : Ipv4Rows T rows)
    (hbase : ∀ l, l ∈ base ↔ l ∈ rows) (hranges : ∀ ip ∈ ranges, ip ∈ rows.map octetPrefix)
    (hnodup : ranges.Nodup)
    (hnew : rows'.Perm (base.filter (octetPrefix · ∉ ranges) ++ rangeRows ranges)) :
    Collapses T ranges rows rows' ↔ WideCovered T ranges rows := by
  have hcovers : ∀ a, Covers T rows' a ↔
      Covers T (rows.filter (octetPrefix · ∉ ranges)) a ∨ Covers T (rangeRows ranges) a := by
    intro a
    rw [← covers_append]
    refine covers_congr fun l => ?_
    rw [hnew.mem_iff, List.mem_append, List.mem_append, List.mem_filter, List.mem_filter, hbase]
  constructor
  · rintro ⟨hkeeps, -, -⟩ l hl b hb - - a ha
    exact (hcovers a).mp (hkeeps a ⟨l, hl, b, hb, ha⟩)
  · intro hwide
    refine ⟨fun a ha => ?_, fun a ha => ?_, fun ip hip => ?_⟩
    · obtain ⟨l, hl, b, hb, hin⟩ := ha
      rw [hcovers]
      by_cases hip : octetPrefix l ∈ ranges
      · by_cases hnarrow : b.net.length < 24
        · exact hwide l hl b hb hnarrow hip a hin
        · obtain ⟨b', hb', hwidth⟩ := hrows l hl
          obtain rfl := Option.some.inj (hb'.symm.trans hb)
          obtain ⟨t, ht, r, hr, hina⟩ :=
            covers_range_of_narrow hb hwidth (Nat.le_of_not_lt hnarrow) hin
          rw [List.mem_singleton.mp ht] at hr
          exact Or.inr ⟨_, List.mem_map_of_mem hip, r, hr, hina⟩
      · exact Or.inl ⟨l, List.mem_filter.mpr ⟨hl, decide_eq_true hip⟩, b, hb, hin⟩
    · refine ((hcovers a).mp ha).imp_left ?_
      rintro ⟨l, hl, b, hb, hin⟩
      exact ⟨l, (List.mem_filter.mp hl).1, b, hb, hin⟩
    · have hnone : (base.filter (octetPrefix · ∉ ranges)).countP (octetPrefix · = ip) = 0 := by
        refine List.countP_eq_zero.mpr fun l hl => ?_
        rw [decide_eq_true_eq]
        rintro rfl
        exact of_decide_eq_true (List.mem_filter.mp hl).2 hip
      have hone : (rangeRows ranges).countP (octetPrefix · = ip) = ranges.count ip := by
        rw [rangeRows, List.countP_map, List.count]
        refine List.countP_congr fun ip' hip' => ?_
        rw [Function.comp_apply, (octetPrefix_range hrows (hranges ip' hip')).1,
          decide_eq_true_eq, beq_iff_eq]
      rw [hnew.countP_eq, List.countP_append, hnone, hone, List.count_eq_one_of_mem hnodup hip]

theorem rangeRows_perm {ranges ranges' : List Str} (h : ranges'.Perm ranges) (base : List Str) :
    (base.filter (octetPrefix · ∉ ranges') ++ rangeRows ranges').Perm
      (base.filter (octetPrefix · ∉ ranges) ++ rangeRows ranges) := by
  have hfilter : base.filter (octetPrefix · ∉ ranges') = base.filter (octetPrefix · ∉ ranges) :=
    List.filter_congr fun l _ => by rw [Bool.eq_iff_iff, decide_eq_true_eq, decide_eq_true_eq,
      h.mem_iff]
  rw [hfilter]
  exact (h.map _).append_left _

variable {order : List Str → List Str}

theorem process255_perm (horder : ∀ ls, (order ls).Perm ls) {rows : List Str}
    (hrows : Ipv4Rows T rows) :
    (process255 order rows).Perm
      (rows.filter (octetPrefix · ∉ crowded 253 rows) ++ rangeRows (crowded 253 rows)) := by
  have hperm := horder (crowded 253 rows)
  have hvalid : ∀ ip ∈ order (crowded 253 rows), ip ∈ rows.map octetPrefix :=
    fun ip hip => mem_crowded (hperm.mem_iff.mp hip)
  refine List.Perm.trans ?_ (rangeRows_perm hperm rows)
  unfold process255
  simp only
  split
  · next hnil =>
      rw [hnil, List.filter_eq_self.mpr fun l _ => decide_eq_true List.not_mem_nil]
      exact (List.append_nil rows).symm ▸ List.Perm.refl _
  · next hne =>
      rw [List.filter_eq_self.mpr fun ip hip => (octetPrefix_range hrows (hvalid ip hip)).2,
        awkExclude_ranges hrows hne hvalid]
      exact List.Perm.refl _

/-- The ranges the reputation pass blocks. -/
def offenders (geoip : Str → Str) (cc : Str) (max : Nat) (rows : List Str) : List Str :=
  (crowded max (sortU rows)).filter (isOffender geoip cc)

theorem reputationMax_perm (horder : ∀ ls, (order ls).Perm ls) (geoip : Str → Str) (cc : Str)
    (max : Nat) {rows : List Str} (hrows : Ipv4Rows T rows) :
    ∃ base : List Str, (∀ l, l ∈ base ↔ l ∈ rows) ∧
      (reputationMax order geoip cc max "block".toList rows).Perm
        (base.filter (octetPrefix · ∉ offenders geoip cc max rows) ++
          rangeRows (offenders geoip cc max rows)) := by
  have hsorted : Ipv4Rows T (sortU rows) := fun l hl => hrows l (mem_sortU.mp hl)
  have hvalid : ∀ ip ∈ order (crowded max (sortU rows)), ip ∈ (sortU rows).map octetPrefix :=
    fun ip hip => mem_crowded ((horder _).mem_iff.mp hip)
  have hall : (order (crowded max (sortU rows))).filter pfbIsOctetPrefix =
      order (crowded max (sortU rows)) :=
    List.filter_eq_self.mpr fun ip hip => (octetPrefix_range hsorted (hvalid ip hip)).2
  have hperm : ((order (crowded max (sortU rows))).filter (isOffender geoip cc)).Perm
      (offenders geoip cc max rows) := (horder _).filter _
  unfold reputationMax
  simp only [hall, if_true]
  split
  · next hnil =>
      refine ⟨rows, fun l => Iff.rfl, ?_⟩
      rw [List.map_eq_nil_iff] at hnil
      rw [hnil] at hperm
      rw [← hperm.nil_eq, List.filter_eq_self.mpr fun l _ => decide_eq_true List.not_mem_nil]
      exact (List.append_nil rows).symm ▸ List.Perm.refl _
  · next hne =>
      refine ⟨sortU rows, fun l => mem_sortU, List.Perm.trans ?_ (rangeRows_perm hperm _)⟩
      rw [List.map_eq_nil_iff] at hne
      have hin : ∀ ip ∈ (order (crowded max (sortU rows))).filter (isOffender geoip cc),
          ip ∈ (sortU rows).map octetPrefix := fun ip hip => hvalid ip (List.mem_filter.mp hip).1
      have hmap : ∀ ips : List Str, (ips.map (· ++ ['.'])).map (· ++ "0/24".toList) =
          rangeRows ips := by
        intro ips
        rw [List.map_map, rangeRows]
        exact List.map_congr_left fun ip _ => List.append_assoc _ _ _
      rw [List.flatMap_map, awkExclude_ranges hsorted hne hin, hmap]
      refine sortU_perm (((nodup_sortU rows).filter _).append ?_ ?_)
      · refine List.Nodup.map (fun ip ip' heq => List.append_cancel_right heq) ?_
        exact (hperm.nodup_iff.mpr ((nodup_crowded _ _).filter _))
      · intro l hl hrange
        obtain ⟨ip, hip, rfl⟩ := List.mem_map.mp hrange
        refine of_decide_eq_true (List.mem_filter.mp hl).2 ?_
        rwa [(octetPrefix_range hsorted (hin ip hip)).1]

/-- Both collapses keep the cover, add to it within the ranges only and leave one row a range
exactly when no row wider than its range loses an address. -/
theorem collapse_keeps_cover_iff (horder : ∀ ls, (order ls).Perm ls) (geoip : Str → Str) (cc : Str)
    (max : Nat) {rows : List Str} (hrows : Ipv4Rows T rows) :
    (Collapses T (crowded 253 rows) rows (process255 order rows) ↔
        WideCovered T (crowded 253 rows) rows) ∧
      (Collapses T (offenders geoip cc max rows) rows
          (reputationMax order geoip cc max "block".toList rows) ↔
        WideCovered T (offenders geoip cc max rows) rows) := by
  constructor
  · exact collapses_iff hrows (fun _ => Iff.rfl) (fun ip hip => mem_crowded hip)
      (nodup_crowded _ _) (process255_perm horder hrows)
  · obtain ⟨base, hbase, hnew⟩ := reputationMax_perm horder geoip cc max hrows
    refine collapses_iff hrows hbase (fun ip hip => ?_) ((nodup_crowded _ _).filter _) hnew
    obtain ⟨l, hl, heq⟩ := List.mem_map.mp (mem_crowded (List.mem_filter.mp hip).1)
    exact List.mem_map.mpr ⟨l, mem_sortU.mp hl, heq⟩

theorem not_covers_singleton {t : Str} {b : Block} (h : entryOf T t = some b) {a : Addr}
    (ha : ¬ b.Contains a) : ¬ Covers T [t] a := by
  rintro ⟨t', ht', b', hb', hin⟩
  rw [List.mem_singleton.mp ht', h] at hb'
  exact ha (Option.some.inj hb' ▸ hin)

end Collapse

/-- A network whose first octets are those of 253 hosts. -/
def crowdedNetwork : List Str :=
  "10.1.0.0/16".toList :: (List.range 253).map fun i => quadText [10, 1, 0, i]

theorem prefix_crowdedNetwork : ∀ l ∈ crowdedNetwork, octetPrefix l = "10.1.0".toList := by
  intro l hl
  rcases List.mem_cons.mp hl with rfl | hl
  · decide
  · obtain ⟨i, -, rfl⟩ := List.mem_map.mp hl
    have hrow : quadText [10, 1, 0, i] = quadText [10, 1, 0] ++ '.' :: octetText i := by
      simp [quadText, joinDots, List.intercalate]
    rw [hrow, octetPrefix_row]
    decide

theorem crowded_crowdedNetwork : crowded 253 crowdedNetwork = ["10.1.0".toList] := by
  have hbegins : crowdedNetwork.map octetPrefix = List.replicate 254 "10.1.0".toList := by
    refine List.eq_replicate_iff.mpr ⟨by simp [crowdedNetwork], fun ip hip => ?_⟩
    obtain ⟨l, hl, rfl⟩ := List.mem_map.mp hip
    exact prefix_crowdedNetwork l hl
  rw [crowded, hbegins, List.replicate_dedup (by decide), List.filter_singleton,
    List.count_replicate_self]
  rfl

theorem crowdedNetwork_ipv4 : Ipv4Rows fullForm crowdedNetwork := by
  intro l hl
  rcases List.mem_cons.mp hl with rfl | hl
  · exact ⟨⟨32, octetBits [10, 1], by decide⟩, by decide, rfl⟩
  · obtain ⟨i, hi, rfl⟩ := List.mem_map.mp hl
    have hlt : i < 256 := (List.mem_range.mp hi).trans (by decide)
    have hhost : hostOf fullForm (quadText [10, 1, 0, i]) = some (octetBits [10, 1, 0, i]) := by
      rw [hostOf, inetPton, readQuad_quadText rfl (by simp [hlt])]
      rfl
    refine ⟨hostBlock (octetBits [10, 1, 0, i]), ?_, length_octetBits _⟩
    rw [entryOf_of_bare (not_mem_of_hostOf hhost (by decide)), hhost]
    rfl

/-- Both passes collapse a network into the /24 it begins with. -/
theorem collapse_loses_network :
    ¬ Collapses fullForm (crowded 253 crowdedNetwork) crowdedNetwork
        (process255 id crowdedNetwork) ∧
      ¬ Collapses fullForm (offenders (fun _ => []) [] 1 ["10.1.0.0/16".toList, "10.1.0.1".toList])
        ["10.1.0.0/16".toList, "10.1.0.1".toList]
        (reputationMax id (fun _ => []) [] 1 "block".toList
          ["10.1.0.0/16".toList, "10.1.0.1".toList]) := by
  have hrange : ¬ Covers fullForm ["10.1.0.0/24".toList] (octetBits [10, 1, 1, 0]) := by
    refine not_covers_singleton (b := ⟨32, octetBits [10, 1, 0], by decide⟩) (by decide) (by decide)
  have hwide : ∀ rows, Covers fullForm ("10.1.0.0/16".toList :: rows) (octetBits [10, 1, 1, 0]) :=
    fun rows => ⟨_, List.mem_cons_self, ⟨32, octetBits [10, 1], by decide⟩, by decide, by decide⟩
  refine ⟨fun h => hrange ?_, fun h => hrange ?_⟩
  · obtain ⟨l, hl, b, hb, hin⟩ := h.1 _ (hwide _)
    have hnew := @process255_perm _ id (fun ls => List.Perm.refl ls) _ crowdedNetwork_ipv4
    rw [crowded_crowdedNetwork] at hnew
    rcases List.mem_append.mp (hnew.mem_iff.mp hl) with hl | hl
    · obtain ⟨hl, hout⟩ := List.mem_filter.mp hl
      rw [prefix_crowdedNetwork l hl] at hout
      exact absurd hout (by decide)
    · exact ⟨l, hl, b, hb, hin⟩
  · have hnew : reputationMax id (fun _ => []) [] 1 "block".toList
        ["10.1.0.0/16".toList, "10.1.0.1".toList] = ["10.1.0.0/24".toList] := by decide
    rw [← hnew]
    exact h.1 _ (hwide _)

/-- Two hosts of a range over the threshold become the range. -/
theorem collapse_keeps_cover_hosts :
    Collapses fullForm (offenders (fun _ => []) [] 1 ["10.1.0.1".toList, "10.1.0.2".toList])
      ["10.1.0.1".toList, "10.1.0.2".toList]
      (reputationMax id (fun _ => []) [] 1 "block".toList
        ["10.1.0.1".toList, "10.1.0.2".toList]) := by
  have hrows : ∀ l ∈ ["10.1.0.1".toList, "10.1.0.2".toList], ∃ b, entryOf fullForm l = some b ∧
      b.width = 32 ∧ ¬ b.net.length < 24 := by
    intro l hl
    rw [List.mem_cons, List.mem_singleton] at hl
    rcases hl with rfl | rfl
    · exact ⟨hostBlock (octetBits [10, 1, 0, 1]), by decide, by decide, by decide⟩
    · exact ⟨hostBlock (octetBits [10, 1, 0, 2]), by decide, by decide, by decide⟩
  refine (@collapse_keeps_cover_iff _ id (fun ls => List.Perm.refl ls) (fun _ => []) [] 1 _
    fun l hl => ?_).2.mpr fun l hl b hb hlt => ?_
  · obtain ⟨b, hb, hwidth, -⟩ := hrows l hl
    exact ⟨b, hb, hwidth⟩
  · obtain ⟨b', hb', -, hnarrow⟩ := hrows l hl
    rw [Option.some.inj (hb'.symm.trans hb)] at hnarrow
    exact absurd hlt hnarrow

end PfBlockerNG.RangeCollapse
