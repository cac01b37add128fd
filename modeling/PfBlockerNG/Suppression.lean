import PfBlockerNG.LivePunch

/-!
The suppression list as its three readers see it: the predicate that spares firewall states, the
shell pass that carves an IPv4 deny file and the PHP pass that carves an IPv6 one.
-/

namespace PfBlockerNG.Suppression

open PfBlockerNG.Strings
open PfBlockerNG.PyText
open PfBlockerNG.BinaryStrings
open PfBlockerNG.IpText
open PfBlockerNG.CidrSubtract
open PfBlockerNG.LivePunch

/-- A CIDR token: digits and dots, one slash that neither begins nor ends it, a numeric mask. -/
def pfbIsCidrToken (t : Str) : Bool :=
  if t = [] ∨ t.any (fun c => !(isAsciiDigit c || c == '.' || c == '/')) = true ∨
      2 ≤ t.count '/' ∨ startsWith ['/'] t = true ∨ endsWith ['/'] t = true then false
  else if '/' ∉ t then false
  else isAsciiDigits (partition '/' t).2.2

/-- The pre-filter of the deny file, `^[0-9.]+(/[0-9]+)?$`. -/
def isMemberLine (t : Str) : Bool :=
  let (address, slash, mask) := partition '/' t
  !address.isEmpty && address.all (fun c => isAsciiDigit c || c == '.') &&
    (!slash || isAsciiDigits mask)

/-- `iprange A --except B`. -/
abbrev Iprange := List Str → List Str → List Str

/-- The deny file after the pass over the suppression lines; no line left means no pass. -/
def suppress (iprange : Iprange) (data member : List Str) : List Str :=
  if data.all List.isEmpty then member
  else iprange (member.filter isMemberLine) (data.filter pfbIsCidrToken)

/-- The deny file after the IPv6 pass; `published` says whether the write and the rename succeed. -/
def pfbSuppressFileV6 (T : Ipv6Text) (cover : Cover) (published : Bool)
    (file suppfile : Option (List Str)) : Bool × Option (List Str) :=
  match file, suppfile with
  | some cidrs, some holes =>
      let (result, _) := pfbCidrSubtractV6 T cover cidrs holes
      if result = cidrs then (true, file)
      else if published then (true, some result)
      else (false, file)
  | _, _ => (false, file)

/-- A suppression line as a subnet: without its trailing comment, a bare host with its full mask. -/
def strippedEntry (entry : Str) : Str :=
  let head := if '#' ∈ entry then (partition '#' entry).1 else []
  let stripped := trim (if head = [] ∨ head = ['0'] then entry else head)
  if '/' ∈ stripped then stripped
  else stripped ++ (if ':' ∈ stripped then "/128".toList else "/32".toList)

/-- `(int) substr(strrchr($stripped, '/'), 1)`. -/
def lastMask (stripped : Str) : Int := decimal ((stripped.splitOn '/').getLastD [])

def matchStep (T : Ipv6Text) (ip : Str) (best : Option Str × Int) (raw : Str) : Option Str × Int :=
  let entry := trim raw
  if entry = [] ∨ startsWith ['#'] entry = true then best
  else
    let stripped := strippedEntry entry
    if ipInSubnet T ip stripped then
      if best.2 < lastMask stripped then (some raw, lastMask stripped) else best
    else best

/-- The most specific line that covers the address. -/
def pfbIpSuppressedMatch (T : Ipv6Text) (ip : Str) (entries : List Str) : Option Str :=
  (entries.foldl (matchStep T ip) (none, -1)).1

def pfbIpSuppressed (T : Ipv6Text) (ip : Str) (entries : List Str) : Bool :=
  (pfbIpSuppressedMatch T ip entries).isSome

section Reading

variable (T : Ipv6Text)

/-- A blank, a comment, a host or a CIDR, with any blanks around it. -/
def WellFormed (line : Str) : Prop :=
  trim line = [] ∨ startsWith ['#'] (trim line) = true ∨ ∃ b, entryOf T (trim line) = some b

/-- The line names a block that holds the address. -/
def Names (line : Str) (a : Addr) : Prop := ∃ b, entryOf T (trim line) = some b ∧ b.Contains a

/-- The line is a CIDR as it stands: it has a mask and no blank around it. -/
def PlainCidr (line : Str) : Prop := trim line = line ∧ '/' ∈ line

/-- The row is a host or CIDR of addresses of `width` bits. -/
def RowOf (width : Nat) (row : Str) : Prop := ∃ b, entryOf T row = some b ∧ b.width = width

/-- `iprange --except` is exact set subtraction on IPv4 hosts and CIDRs. -/
def ExactExcept (iprange : Iprange) : Prop :=
  ∀ members holes, (∀ t ∈ members, RowOf T 32 t) → (∀ t ∈ holes, RowOf T 32 t) →
    ∀ a, Covers T (iprange members holes) a ↔ Covers T members a ∧ ¬ Covers T holes a

/-- The carve of the address's family takes it out of the deny file. -/
def Removed (cover : Cover) (iprange : Iprange) (lines deny : List Str) (a : Addr) : Prop :=
  if a.length = 128 then
    ∃ file, pfbSuppressFileV6 T cover true (some deny) (some lines) = (true, some file) ∧
      ¬ Covers T file a
  else ¬ Covers T (suppress iprange lines deny) a

end Reading

section Predicate

variable {T : Ipv6Text}

theorem matchStep_isSome (ip : Str) (entries : List Str) {best : Option Str × Int}
    (hbest : best.1 = none → best.2 = -1) :
    (entries.foldl (matchStep T ip) best).1.isSome = true ↔ best.1.isSome = true ∨
      ∃ raw ∈ entries, trim raw ≠ [] ∧ startsWith ['#'] (trim raw) = false ∧
        ipInSubnet T ip (strippedEntry (trim raw)) = true := by
  induction entries generalizing best with
  | nil => simp
  | cons raw entries ih =>
      rw [List.foldl_cons]
      have hmask : (-1 : Int) < lastMask (strippedEntry (trim raw)) := by
        unfold lastMask
        omega
      have hstep : (matchStep T ip best raw).1 = none → (matchStep T ip best raw).2 = -1 := by
        unfold matchStep
        simp only
        split_ifs <;> simp_all
      have hsome : (matchStep T ip best raw).1.isSome = true ↔ best.1.isSome = true ∨
          (trim raw ≠ [] ∧ startsWith ['#'] (trim raw) = false ∧
            ipInSubnet T ip (strippedEntry (trim raw)) = true) := by
        unfold matchStep
        simp only
        split_ifs with hskip hin hlt
        · constructor
          · exact Or.inl
          · rintro (h | ⟨hne, hhash, -⟩)
            · exact h
            · rcases hskip with h | h
              · exact absurd h hne
              · rw [hhash] at h
                cases h
        · simp only [not_or, Bool.not_eq_true] at hskip
          simp [hskip.1, hskip.2, hin]
        · simp only [not_or, Bool.not_eq_true] at hskip
          have hset : best.1.isSome = true := by
            cases hb : best.1 with
            | some => rfl
            | none =>
                rw [hbest hb] at hlt
                exact absurd hmask hlt
          simp [hset]
        · simp [hin]
      rw [ih hstep, hsome, List.exists_mem_cons_iff, or_assoc]

/-- On well-formed lines the stripped entry names what the line names. -/
theorem subnetOf_strippedEntry {t : Str} {b : Block} (h : entryOf T t = some b) :
    subnetOf T (strippedEntry t) = some b := by
  have hhash : '#' ∉ t := not_mem_of_entryOf h (by decide)
  unfold strippedEntry
  simp only [if_neg hhash, true_or, if_true, trim_of_entryOf h]
  split
  · rename_i hslash
    rwa [← entryOf_of_subnet hslash]
  · rename_i hslash
    rw [entryOf_of_bare hslash] at h
    obtain ⟨a, ha, rfl⟩ := Option.map_eq_some_iff.mp h
    have hlen := length_of_hostOf ha
    split
    · rename_i hcolon
      rw [if_pos hcolon] at hlen
      exact subnetOf_host ha (by rw [hlen]; decide)
    · rename_i hcolon
      rw [if_neg hcolon] at hlen
      exact subnetOf_host ha (by rw [hlen]; decide)

/-- The predicate holds exactly when some line names the address. -/
theorem pfbIpSuppressed_iff {ip : Str} {a : Addr} (hip : hostOf T ip = some a) {lines : List Str}
    (hlines : ∀ l ∈ lines, WellFormed T l) :
    pfbIpSuppressed T ip lines = true ↔ ∃ l ∈ lines, Names T l a := by
  rw [pfbIpSuppressed, pfbIpSuppressedMatch, matchStep_isSome ip lines (fun _ => rfl)]
  simp only [Option.isSome_none, Bool.false_eq_true, false_or]
  refine exists_congr fun l => and_congr_right fun hl => ?_
  constructor
  · rintro ⟨hne, hhash, hin⟩
    rcases hlines l hl with hnil | hcomment | ⟨b, hb⟩
    · exact absurd hnil hne
    · rw [hhash] at hcomment
      cases hcomment
    · obtain ⟨x, c, hx, hc, hxc⟩ := ipInSubnet_iff.mp hin
      obtain rfl := Option.some.inj (hip.symm.trans hx)
      obtain rfl := Option.some.inj ((subnetOf_strippedEntry hb).symm.trans hc)
      exact ⟨b, hb, hxc⟩
  · rintro ⟨b, hb, hin⟩
    obtain ⟨hne, -⟩ := clean_of_entryOf hb
    refine ⟨hne, ?_, ipInSubnet_iff.mpr ⟨a, b, hip, subnetOf_strippedEntry hb, hin⟩⟩
    rw [← Bool.not_eq_true]
    intro hhash
    obtain ⟨rest, hrest⟩ := List.isPrefixOf_iff_prefix.mp hhash
    exact not_mem_of_entryOf hb (by decide)
      (hrest ▸ List.mem_append_left _ (List.mem_singleton_self _))

end Predicate

section Carve

variable {T : Ipv6Text} {cover : Cover} {iprange : Iprange}

/-- The text of an IPv4 subnet, piece by piece. -/
theorem ipv4Subnet_text {s : Str} {b : Block} (h : subnetOf T s = some b) (hwidth : b.width = 32) :
    ∃ net mask, s = net ++ '/' :: mask ∧ net ≠ [] ∧
      (∀ c ∈ net, (isAsciiDigit c || c == '.') = true) ∧
      isAsciiDigits mask = true := by
  obtain ⟨net, mask, bits, a, hpart, hmask, ha, -, hlen, -⟩ := subnetOf_eq_some_iff.mp h
  rw [hwidth] at hlen
  refine ⟨net, mask, ((partition_eq_found_iff _ _ _ _).mp hpart).1, ?_, ?_, ?_⟩
  · rintro rfl
    rw [hostOf_nil] at ha
    cases ha
  · obtain ⟨octets, hos, rfl⟩ := Option.map_eq_some_iff.mp ha
    rcases inetPton_eq_some hos with ⟨hquad, -⟩ | ⟨hpton, -⟩
    · exact quad_clean hquad
    · rw [length_octetBits, T.length_of_pton hpton] at hlen
      omega
  · unfold readMask at hmask
    split at hmask
    · rename_i hm
      simp only [Bool.and_eq_true] at hm
      exact hm.1
    · cases hmask

theorem digits_not_slash {s : Str} (h : ∀ c ∈ s, (isAsciiDigit c || c == '.') = true) : '/' ∉ s :=
  fun hmem => absurd (h '/' hmem) (by decide)

theorem pfbIsCidrToken_of_subnetOf {s : Str} {b : Block} (h : subnetOf T s = some b)
    (hwidth : b.width = 32) : pfbIsCidrToken s = true := by
  obtain ⟨net, mask, rfl, hne, hnet, hmask⟩ := ipv4Subnet_text h hwidth
  have hdigits : mask ≠ [] ∧ ∀ c ∈ mask, isAsciiDigit c = true := by
    simpa [isAsciiDigits, List.all_eq_true] using hmask
  have hslash := digits_not_slash hnet
  have hmaskSlash : '/' ∉ mask := fun hmem => absurd (hdigits.2 '/' hmem) (by decide)
  have hpart := (partition_eq_found_iff '/' (net ++ '/' :: mask) net mask).mpr ⟨rfl, hslash⟩
  have hany : (net ++ '/' :: mask).any
      (fun c => !(isAsciiDigit c || c == '.' || c == '/')) = false := by
    rw [List.any_eq_false]
    intro c hc
    rcases List.mem_append.mp hc with hc | hc
    · simp [hnet c hc]
    · rcases List.mem_cons.mp hc with rfl | hc
      · simp
      · simp [hdigits.2 c hc]
  have hcount : (net ++ '/' :: mask).count '/' = 1 := by
    rw [List.count_append, List.count_cons_self, List.count_eq_zero_of_not_mem hslash,
      List.count_eq_zero_of_not_mem hmaskSlash]
  have hstart : startsWith ['/'] (net ++ '/' :: mask) = false := by
    obtain _ | ⟨c, net⟩ := net
    · exact absurd rfl hne
    · simp only [startsWith, List.cons_append, List.isPrefixOf]
      simp only [List.mem_cons, not_or] at hslash
      simp [hslash.1]
  have hend : endsWith ['/'] (net ++ '/' :: mask) = false := by
    rw [← Bool.not_eq_true, endsWith, List.isSuffixOf_iff_suffix]
    rintro ⟨front, hfront⟩
    obtain ⟨init, last, rfl⟩ : ∃ init last, mask = init ++ [last] :=
      ⟨_, _, (List.dropLast_append_getLast hdigits.1).symm⟩
    have hlast : front ++ ['/'] = (net ++ '/' :: init) ++ [last] := by simpa using hfront
    have := (List.append_inj' hlast rfl).2
    simp only [List.cons.injEq, and_true] at this
    exact hmaskSlash (List.mem_append_right _ (this ▸ List.mem_singleton_self _))
  have hno : ¬(net ++ '/' :: mask = [] ∨ (net ++ '/' :: mask).any
      (fun c => !(isAsciiDigit c || c == '.' || c == '/')) = true ∨
      2 ≤ (net ++ '/' :: mask).count '/' ∨ startsWith ['/'] (net ++ '/' :: mask) = true ∨
      endsWith ['/'] (net ++ '/' :: mask) = true) := by
    rw [hany, hcount, hstart, hend]
    simp
  unfold pfbIsCidrToken
  rw [if_neg hno, if_neg (by simp), hpart]
  exact hmask

/-- Of the well-formed lines the token filter keeps the plain IPv4 CIDRs. -/
theorem pfbIsCidrToken_iff {l : Str} (hl : WellFormed T l) :
    pfbIsCidrToken l = true ↔ PlainCidr l ∧ RowOf T 32 (trim l) := by
  constructor
  · intro h
    have hchars : ∀ c ∈ l, (isAsciiDigit c || c == '.' || c == '/') = true := by
      unfold pfbIsCidrToken at h
      split at h
      · cases h
      · rename_i hno
        simp only [not_or, Bool.not_eq_true, List.any_eq_false, Bool.not_eq_false'] at hno
        exact hno.2.1
    have hshape : l ≠ [] ∧ '/' ∈ l := by
      unfold pfbIsCidrToken at h
      split at h
      · cases h
      · rename_i hno
        split at h
        · cases h
        · rename_i hslash
          exact ⟨fun hnil => hno (Or.inl hnil), not_not.mp hslash⟩
    have htrim : trim l = l := by
      refine trim_of_forall fun c hc => ?_
      have hclean := hchars c hc
      cases ht : isTrimmed c with
      | false => rfl
      | true =>
          simp only [isTrimmed, Bool.or_eq_true, beq_iff_eq] at ht
          rcases ht with ((((rfl | rfl) | rfl) | rfl) | rfl) | rfl <;>
            exact absurd hclean (by decide)
    refine ⟨⟨htrim, hshape.2⟩, ?_⟩
    rcases hl with hnil | hhash | ⟨b, hb⟩
    · exact absurd (htrim ▸ hnil) hshape.1
    · rw [htrim] at hhash
      obtain ⟨rest, hrest⟩ := List.isPrefixOf_iff_prefix.mp hhash
      have hmem : '#' ∈ l := hrest ▸ List.mem_append_left _ (List.mem_singleton_self _)
      exact absurd (hchars '#' hmem) (by decide)
    · refine ⟨b, hb, ?_⟩
      rw [htrim, entryOf_of_subnet hshape.2] at hb
      obtain ⟨net, mask, bits, a, hpart, -, ha, -, hlen, -⟩ := subnetOf_eq_some_iff.mp hb
      rw [hlen, length_of_hostOf ha, if_neg]
      intro hcolon
      have hmem : ':' ∈ l := by
        rw [((partition_eq_found_iff _ _ _ _).mp hpart).1]
        exact List.mem_append_left _ hcolon
      exact absurd (hchars ':' hmem) (by decide)
  · rintro ⟨⟨htrim, hslash⟩, b, hb, hwidth⟩
    rw [htrim, entryOf_of_subnet hslash] at hb
    exact pfbIsCidrToken_of_subnetOf hb hwidth

theorem isMemberLine_of_rowOf {row : Str} (h : RowOf T 32 row) : isMemberLine row = true := by
  obtain ⟨b, hb, hwidth⟩ := h
  by_cases hslash : '/' ∈ row
  · rw [entryOf_of_subnet hslash] at hb
    obtain ⟨net, mask, rfl, hne, hnet, hmask⟩ := ipv4Subnet_text hb hwidth
    have hpart := (partition_eq_found_iff '/' (net ++ '/' :: mask) net mask).mpr
      ⟨rfl, digits_not_slash hnet⟩
    rw [isMemberLine, hpart]
    simp only [hmask, Bool.or_true, Bool.and_true, Bool.and_eq_true, Bool.not_eq_true',
      List.isEmpty_eq_false_iff]
    exact ⟨hne, List.all_eq_true.mpr hnet⟩
  · rw [entryOf_of_bare hslash] at hb
    obtain ⟨a, ha, rfl⟩ := Option.map_eq_some_iff.mp hb
    have hlen : a.length = 32 := hwidth
    have hclean : ∀ c ∈ row, (isAsciiDigit c || c == '.') = true := by
      obtain ⟨octets, hos, rfl⟩ := Option.map_eq_some_iff.mp ha
      rcases inetPton_eq_some hos with ⟨hquad, -⟩ | ⟨hpton, -⟩
      · exact quad_clean hquad
      · rw [length_octetBits, T.length_of_pton hpton] at hlen
        omega
    have hne : row ≠ [] := by
      rintro rfl
      rw [hostOf_nil] at ha
      cases ha
    have hfound := (partition_found_eq_false_iff '/' row).mpr hslash
    have hhead := partition_fst_of_not_mem hslash
    simp only [isMemberLine, hfound, hhead, Bool.not_false, Bool.true_or, Bool.and_true,
      Bool.and_eq_true, Bool.not_eq_true', List.isEmpty_eq_false_iff]
    exact ⟨hne, List.all_eq_true.mpr hclean⟩

theorem map_trim_of_rowOf {width : Nat} {rows : List Str} (h : ∀ row ∈ rows, RowOf T width row) :
    rows.map trim = rows := by
  rw [List.map_congr_left (g := id), List.map_id]
  intro row hrow
  obtain ⟨b, hb, -⟩ := h row hrow
  exact trim_of_entryOf hb

theorem covers_map_trim_iff {lines : List Str} {a : Addr} :
    Covers T (lines.map trim) a ↔ ∃ l ∈ lines, Names T l a := by
  simp only [Covers, Names, List.mem_map]
  constructor
  · rintro ⟨-, ⟨l, hl, rfl⟩, hb⟩
    exact ⟨l, hl, hb⟩
  · rintro ⟨l, hl, hb⟩
    exact ⟨_, ⟨l, hl, rfl⟩, hb⟩

/-- The IPv6 pass removes what a line names. -/
theorem removed_ipv6_iff (hcover : ExactCover T cover) {lines deny : List Str} {a : Addr}
    (ha : a.length = 128) (hdeny : ∀ row ∈ deny, RowOf T 128 row) (hin : Covers T deny a) :
    Removed T cover iprange lines deny a ↔ ∃ l ∈ lines, Names T l a := by
  have hresult := @covers_pfbCidrSubtractV6 T cover hcover deny lines a
  rw [map_trim_of_rowOf hdeny, covers_map_trim_iff] at hresult
  have hrun : ∃ file, pfbSuppressFileV6 T cover true (some deny) (some lines) = (true, some file) ∧
      file = (pfbCidrSubtractV6 T cover deny lines).1 := by
    simp only [pfbSuppressFileV6]
    split
    · rename_i hsame
      exact ⟨deny, rfl, hsame.symm⟩
    · exact ⟨_, rfl, rfl⟩
  obtain ⟨file, hfile, heq⟩ := hrun
  rw [Removed, if_pos ha, hfile]
  simp only [Prod.mk.injEq, Option.some.injEq, true_and, exists_eq_left', heq, hresult]
  constructor
  · intro hnot
    by_contra hno
    exact hnot ⟨ha, hin, hno⟩
  · rintro hnames ⟨-, -, hno⟩
    exact hno hnames

/-- The IPv4 pass removes what a line names that is a CIDR as it stands. -/
theorem removed_ipv4_iff (hiprange : ExactExcept T iprange) {lines deny : List Str}
    (hlines : ∀ l ∈ lines, WellFormed T l) {a : Addr} (ha : a.length = 32)
    (hdeny : ∀ row ∈ deny, RowOf T 32 row) (hin : Covers T deny a) :
    Removed T cover iprange lines deny a ↔ ∃ l ∈ lines, PlainCidr l ∧ Names T l a := by
  have hmember : deny.filter isMemberLine = deny :=
    List.filter_eq_self.mpr fun row hrow => isMemberLine_of_rowOf (hdeny row hrow)
  have hkept : ∀ t ∈ lines.filter pfbIsCidrToken, PlainCidr t ∧ RowOf T 32 t := by
    intro t ht
    obtain ⟨hmem, htoken⟩ := List.mem_filter.mp ht
    obtain ⟨hplain, hrow⟩ := (pfbIsCidrToken_iff (hlines t hmem)).mp htoken
    exact ⟨hplain, hplain.1 ▸ hrow⟩
  have hholes : Covers T (lines.filter pfbIsCidrToken) a ↔
      ∃ l ∈ lines, PlainCidr l ∧ Names T l a := by
    constructor
    · rintro ⟨t, ht, b, hb, hba⟩
      obtain ⟨hplain, -⟩ := hkept t ht
      exact ⟨t, (List.mem_filter.mp ht).1, hplain, b, hplain.1.symm ▸ hb, hba⟩
    · rintro ⟨l, hl, hplain, b, hb, hba⟩
      have htoken := (pfbIsCidrToken_iff (hlines l hl)).mpr ⟨hplain, b, hb, hba.1.symm.trans ha⟩
      exact ⟨l, List.mem_filter.mpr ⟨hl, htoken⟩, b, hplain.1 ▸ hb, hba⟩
  rw [Removed, if_neg (by omega), suppress]
  split
  · rename_i hempty
    simp only [hin, not_true_eq_false, false_iff]
    rintro ⟨l, hl, hplain, -⟩
    have hnil := List.isEmpty_iff.mp (List.all_eq_true.mp hempty l hl)
    rw [hnil] at hplain
    cases hplain.2
  · rw [hmember, hiprange deny _ hdeny (fun t ht => (hkept t ht).2), hholes]
    constructor
    · intro hnot
      by_contra hno
      exact hnot ⟨hin, hno⟩
    · rintro hplain ⟨-, hno⟩
      exact hno hplain

/-- The predicate and the carve agree on an address exactly when it is an IPv6 one, or a line that
is a CIDR as it stands names it, or no line names it. -/
theorem suppression_agrees_iff (hcover : ExactCover T cover) (hiprange : ExactExcept T iprange)
    (lines : List Str) (hlines : ∀ l ∈ lines, WellFormed T l) (ip : Str) (a : Addr)
    (hip : hostOf T ip = some a) (deny : List Str) (hdeny : ∀ row ∈ deny, RowOf T a.length row)
    (hin : Covers T deny a) :
    (pfbIpSuppressed T ip lines = true ↔ Removed T cover iprange lines deny a) ↔
      a.length = 128 ∨ (∃ l ∈ lines, PlainCidr l ∧ Names T l a) ∨ ¬ ∃ l ∈ lines, Names T l a := by
  rw [pfbIpSuppressed_iff hip hlines]
  by_cases ha : a.length = 128
  · rw [removed_ipv6_iff hcover ha (ha ▸ hdeny) hin]
    simp [ha]
  · have hlen : a.length = 32 := by
      have h := length_of_hostOf hip
      split at h
      · exact absurd h ha
      · exact h
    rw [removed_ipv4_iff hiprange hlines hlen (hlen ▸ hdeny) hin]
    simp only [ha, false_or]
    constructor
    · intro hiff
      by_cases hnames : ∃ l ∈ lines, Names T l a
      · exact Or.inl (hiff.mp hnames)
      · exact Or.inr hnames
    · rintro (hplain | hnone)
      · exact ⟨fun _ => hplain, fun ⟨l, hl, _, hnames⟩ => ⟨l, hl, hnames⟩⟩
      · exact ⟨fun h => absurd h hnone, fun ⟨l, hl, _, hnames⟩ => absurd ⟨l, hl, hnames⟩ hnone⟩

end Carve

section Instance

/-- A subtraction by single addresses. -/
def exceptSingles (T : Ipv6Text) (members holes : List Str) : List Str :=
  members.flatMap fun t => match entryOf T t with
    | some b => ((List.range (value b.last + 1 - value b.first)).map
        (fun i => ofNat b.width (value b.first + i))).filterMap fun a =>
          if (holes.any fun h => match entryOf T h with
            | some c => decide (c.Contains a)
            | none => false) then none
          else some (hostText T a ++ hostMask (a.length != 32))
    | none => []

theorem exceptSingles_exact {T : Ipv6Text} : ExactExcept T (exceptSingles T) := by
  intro members holes hmembers hholes a
  have hhole : ∀ x : Addr, (holes.any fun h => match entryOf T h with
      | some c => decide (c.Contains x)
      | none => false) = true ↔ Covers T holes x := by
    intro x
    simp only [List.any_eq_true, Covers]
    refine exists_congr fun h => and_congr_right fun _ => ?_
    cases entryOf T h <;> simp
  have hone : ∀ t ∈ members, (Covers T (exceptSingles T [t] holes) a ↔
      Covers T [t] a ∧ ¬ Covers T holes a) := by
    intro t ht
    obtain ⟨b, hb, hwidth⟩ := hmembers t ht
    have hlast := value_lt b.last
    rw [b.length_last] at hlast
    have hentry : ∀ i, entryOf T (hostText T (ofNat b.width (value b.first + i)) ++
        hostMask ((ofNat b.width (value b.first + i)).length != 32)) =
          some (hostBlock (ofNat b.width (value b.first + i))) :=
      fun i => entryOf_single (Or.inl (by rw [length_ofNat, hwidth]))
    simp only [exceptSingles, List.flatMap_cons, List.flatMap_nil, List.append_nil, hb, Covers,
      List.mem_filterMap, List.mem_map, List.mem_range, List.mem_singleton,
      exists_eq_left, Option.some.injEq, exists_eq_left']
    constructor
    · rintro ⟨text, ⟨x, ⟨i, hi, rfl⟩, htext⟩, c, hc, hca⟩
      split at htext
      · cases htext
      · rename_i hno
        obtain rfl := Option.some.inj htext
        rw [hentry i] at hc
        obtain rfl := Option.some.inj hc
        obtain rfl := contains_hostBlock.mp hca
        refine ⟨Block.contains_iff_between.mpr ⟨length_ofNat _ _, ?_, ?_⟩, fun hcov => ?_⟩
        · rw [value_ofNat, Nat.mod_eq_of_lt (by omega)]
          omega
        · rw [value_ofNat, Nat.mod_eq_of_lt (by omega)]
          omega
        · exact hno ((hhole _).mpr hcov)
    · rintro ⟨hba, hno⟩
      obtain ⟨hlen, h₁, h₂⟩ := Block.contains_iff_between.mp hba
      have ha : ofNat b.width (value b.first + (value a - value b.first)) = a := by
        refine eq_of_value_eq (by rw [length_ofNat, hlen]) ?_
        rw [value_ofNat, Nat.mod_eq_of_lt (by omega)]
        omega
      refine ⟨_, ⟨a, ⟨value a - value b.first, by omega, ha⟩, if_neg ?_⟩, hostBlock a, ?_,
        contains_hostBlock.mpr rfl⟩
      · rw [hhole]
        exact hno
      · exact entryOf_single (Or.inl (hlen.trans hwidth))
  have hflat : exceptSingles T members holes =
      members.flatMap fun t => exceptSingles T [t] holes := by
    simp [exceptSingles]
  rw [hflat, covers_flatMap]
  constructor
  · rintro ⟨t, ht, hcov⟩
    obtain ⟨⟨u, hu, hb⟩, hno⟩ := (hone t ht).mp hcov
    exact ⟨⟨u, List.mem_singleton.mp hu ▸ ht, hb⟩, hno⟩
  · rintro ⟨⟨t, ht, hb⟩, hno⟩
    exact ⟨t, ht, (hone t ht).mpr ⟨⟨t, List.mem_singleton_self t, hb⟩, hno⟩⟩

def five : Addr := octetBits [10, 0, 0, 5]

def pairBlock : Block := ⟨32, (octetBits [10, 0, 0, 4]).take 31, by decide⟩

def fiveRow : Str := "10.0.0.5/32".toList

theorem pair_rowOf : ∀ row ∈ ["10.0.0.4/31".toList], RowOf fullForm five.length row := by
  intro row hrow
  exact ⟨pairBlock, List.mem_singleton.mp hrow ▸ by decide, by decide⟩

theorem pair_covers : Covers fullForm ["10.0.0.4/31".toList] five :=
  ⟨_, List.mem_singleton_self _, pairBlock, by decide, by decide⟩

theorem suppression_agrees_iff_cidr :
    pfbIpSuppressed fullForm "10.0.0.5".toList [fiveRow] = true ∧
    ((pfbIpSuppressed fullForm "10.0.0.5".toList [fiveRow] = true ↔
      Removed fullForm (singles fullForm) (exceptSingles fullForm) [fiveRow]
        ["10.0.0.4/31".toList] five) ↔
      five.length = 128 ∨ (∃ l ∈ [fiveRow], PlainCidr l ∧ Names fullForm l five) ∨
        ¬ ∃ l ∈ [fiveRow], Names fullForm l five) :=
  ⟨by decide, suppression_agrees_iff singles_exact exceptSingles_exact [fiveRow]
    (fun l hl => Or.inr (Or.inr ⟨hostBlock five, List.mem_singleton.mp hl ▸ by decide⟩))
    "10.0.0.5".toList five (by decide) ["10.0.0.4/31".toList] pair_rowOf pair_covers⟩

/-- A bare host is spared by the predicate and left in the deny file by the shell pass. -/
theorem bareHost_spared_and_blocked :
    pfbIpSuppressed fullForm "10.0.0.5".toList ["10.0.0.5".toList] = true ∧
      ¬ Removed fullForm (singles fullForm) (exceptSingles fullForm) ["10.0.0.5".toList]
        ["10.0.0.4/31".toList] five := by
  refine ⟨by decide, ?_⟩
  rw [Removed, if_neg (by decide), not_not]
  exact ⟨fiveRow, by decide, hostBlock five, by decide, by decide⟩

end Instance

end PfBlockerNG.Suppression
