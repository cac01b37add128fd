import PfBlockerNG.IpText
import PfBlockerNG.ShellText

/-!
The containment prune of one feed against the rows of the feeds before it: `grepcidr` looks at the
base address of a row only, so rows are grouped by prefix length and each group is searched for the
patterns that are wide enough.
-/

namespace PfBlockerNG.CidrDedup

open PfBlockerNG.Strings
open PfBlockerNG.PyText
open PfBlockerNG.IpText
open PfBlockerNG.ShellText

/-- `grepcidr -vf patterns input`, `none` when it ends with an error. -/
abbrev Grepcidr := Str → Str → Option Str

/-- The digits of the first match of `/\/[0-9]+/`. -/
def slashDigits : Str → Option Str
  | [] => none
  | c :: s =>
      if c = '/' ∧ s.takeWhile isAsciiDigit ≠ [] then some (s.takeWhile isAsciiDigit)
      else slashDigits s

def fmax (s : Str) : Nat := if ':' ∈ s then 128 else 32

/-- The prefix length of a row, at most `m`. -/
def bits (s : Str) (m : Nat) : Nat :=
  match slashDigits s with
  | none => m
  | some ds => if decimal ds < m then decimal ds else m

def widerThanHost (s : Str) : Bool := (slashDigits s).any (decimal · < fmax s)

/-- What the plan says of a group of rows. -/
inductive Mode where
  | all
  | keep
  | some (qs : List Nat)
deriving DecidableEq

/-- The pattern rows the first `awk` counts. -/
def patternRows (patternFile : Str) : List Str :=
  ((lines patternFile).map stripCr).filter hasFields

section Plan

variable (patterns : List Str)

def inBucket (m q : Nat) (l : Str) : Bool := fmax l == m && bits l m == q

/-- `nq[m, q]`. -/
def nq (m q : Nat) : Nat := patterns.countP (inBucket m q)

/-- `ntot[m]`. -/
def ntot (m : Nat) : Nat := patterns.countP (fmax · == m)

/-- The prefix lengths up to `p` that some pattern has. -/
def wideEnough (m p : Nat) : List Nat := (List.range (p + 1)).filter (fun q => nq patterns m q != 0)

def use (m p : Nat) : Nat := ((wideEnough patterns m p).map (nq patterns m)).sum

def modeOf (m p : Nat) : Mode :=
  if use patterns m p = ntot patterns m ∧ patterns.length ≠ 0 then .all
  else if use patterns m p = 0 then .keep
  else .some (wideEnough patterns m p)

/-- The file of a bucket; host-width buckets have none. -/
def bucketFile (m q : Nat) : Option Str :=
  if q < m ∧ nq patterns m q ≠ 0 then some (unlines (patterns.filter (inBucket m q))) else none

end Plan

def groupOf (l : Str) : Nat × Nat := (fmax l, bits l (fmax l))

/-- The second `awk`: the lines of the input that were kept, an unterminated one as it is. -/
def reprint (kept : List Str) (n : Nat) : Nat → List Str → Str
  | _, [] => []
  | fnr, l :: ls =>
      (if l ∈ kept then l ++ (if n < fnr then [] else ['\n']) else []) ++
        reprint kept n (fnr + 1) ls

section Dedup

variable (grepcidr : Grepcidr) (order : List (Nat × Nat) → List (Nat × Nat))

/-- What one group of the plan leaves in the kept file. -/
def runGroup (patternFile : Str) (input : List Str) (g : Nat × Nat) : Option Str :=
  let patterns := patternRows patternFile
  let groupFile := unlines (input.filter (groupOf · = g))
  match modeOf patterns g.1 g.2 with
  | .keep => some groupFile
  | .all => grepcidr patternFile groupFile
  | .some qs => do
      let files ← qs.mapM (bucketFile patterns g.1)
      grepcidr files.flatten groupFile

/-- `pfb_cidr_dedup()`: the rows of the input that no pattern row contains, `none` when a command
fails. `order` is the order `for (g in grp)` runs in. -/
def pfbCidrDedup (patternFile inputFile : Str) : Option Str :=
  let input := lines inputFile
  if !input.any widerThanHost && hasText patternFile then grepcidr patternFile inputFile
  else do
    let kept ← (order (input.map groupOf).dedup).mapM (runGroup grepcidr patternFile input)
    some (reprint (lines kept.flatten) (newlines inputFile) 1 input)

end Dedup

section Rows

variable (T : Ipv6Text)

/-- The address a row starts with. -/
def baseOf (l : Str) : Option Addr := hostOf T (partition '/' l).1

/-- The base address lies in a row of the patterns. -/
def hit (patterns : List Str) (l : Str) : Bool :=
  patterns.any fun s => (entryOf T s).any fun b => (baseOf T l).any fun a => decide (b.Contains a)

/-- A row of the patterns contains the whole row. -/
def contained (patterns : List Str) (l : Str) : Bool :=
  patterns.any fun s => (entryOf T s).any fun b => (entryOf T l).any fun b' =>
    b.width == b'.width && b.net.isPrefixOf b'.net

/-- Every line is an address or a subnet. -/
def Rows (ls : List Str) : Prop := ∀ l ∈ ls, ∃ b, entryOf T l = some b

/-- What the prune relies on: `grepcidr -vf` prints the rows of the input, in order and with their
line ends, whose base address lies in no row of the patterns, and nothing without a pattern. -/
def PrintsMisses (grepcidr : Grepcidr) : Prop :=
  ∀ {patternFile inputFile out : Str}, grepcidr patternFile inputFile = some out →
    Rows T (patternRows patternFile) → Rows T (lines inputFile) →
    out = ((segments inputFile).filter fun seg =>
      patternRows patternFile ≠ [] && !hit T (patternRows patternFile) (chomp seg)).flatten

end Rows

theorem mapM_eq_some_map {α β : Type} {f : α → Option β} {g : α → β} {xs : List α}
    (h : ∀ x ∈ xs, f x = some (g x)) : xs.mapM f = some (xs.map g) := by
  induction xs with
  | nil => rfl
  | cons x xs ih =>
      rw [List.mapM_cons, h x List.mem_cons_self, ih fun y hy => h y (List.mem_cons_of_mem _ hy)]
      rfl

theorem eq_map_of_mapM {α β : Type} {f : α → Option β} {g : α → β} {xs : List α} {ys : List β}
    (hmap : xs.mapM f = some ys) (h : ∀ x ∈ xs, ∀ y, f x = some y → y = g x) :
    ys = xs.map g := by
  induction xs generalizing ys with
  | nil =>
      cases hmap
      rfl
  | cons x xs ih =>
      rw [List.mapM_cons] at hmap
      obtain ⟨y, hy, hmap⟩ := Option.bind_eq_some_iff.mp hmap
      obtain ⟨zs, hzs, hmap⟩ := Option.bind_eq_some_iff.mp hmap
      cases hmap
      rw [List.map_cons, h x List.mem_cons_self y hy,
        ih hzs fun x' hx' => h x' (List.mem_cons_of_mem _ hx')]

theorem isSome_mapM {α β : Type} {f : α → Option β} {xs : List α}
    (h : ∀ x ∈ xs, (f x).isSome = true) : (xs.mapM f).isSome = true := by
  induction xs with
  | nil => rfl
  | cons x xs ih =>
      obtain ⟨y, hy⟩ := Option.isSome_iff_exists.mp (h x List.mem_cons_self)
      obtain ⟨ys, hys⟩ := Option.isSome_iff_exists.mp
        (ih fun x' hx' => h x' (List.mem_cons_of_mem _ hx'))
      rw [List.mapM_cons, hy, hys]
      rfl

/-- The second `awk` prints the lines of the input that were kept as they stand in it. -/
theorem reprint_eq (kept : List Str) (s : Str) (k : Nat) :
    reprint kept (k + newlines s) (k + 1) (lines s) =
      ((segments s).filter (fun seg => decide (chomp seg ∈ kept))).flatten := by
  induction s using textInduction generalizing k with
  | nil => rfl
  | last l hl hne =>
      have hcount : newlines l = 0 := List.count_eq_zero.mpr hl
      rw [lines, segments_of_not_mem hl hne, List.map_singleton, chomp_of_not_mem hl, hcount]
      by_cases hmem : l ∈ kept
      · simp [reprint, hmem, hl]
      · simp [reprint, hmem, hl]
  | line l s hl ih =>
      have hcount : newlines (l ++ '\n' :: s) = newlines s + 1 := by
        rw [newlines, List.count_append, List.count_cons_self, List.count_eq_zero.mpr hl, newlines]
        omega
      have hle : ¬ k + (newlines s + 1) < k + 1 := by omega
      have hrest := ih (k + 1)
      rw [Nat.add_right_comm k 1, Nat.add_assoc k] at hrest
      rw [lines_append hl, segments_append hl, hcount, reprint, hrest, List.filter_cons,
        chomp_append hl, if_neg hle]
      by_cases hmem : l ∈ kept
      · rw [if_pos hmem, if_pos (decide_eq_true hmem), List.flatten_cons]
      · rw [if_neg hmem, if_neg (by simpa using hmem), List.nil_append]

section Spec

variable {T : Ipv6Text}

theorem slashDigits_of_not_mem {s : Str} (h : '/' ∉ s) : slashDigits s = none := by
  induction s with
  | nil => rfl
  | cons c s ih =>
      rw [List.mem_cons, not_or] at h
      rw [slashDigits, if_neg (fun hc => h.1 hc.1.symm), ih h.2]

theorem slashDigits_append {net mask : Str} (hnet : '/' ∉ net) (hmask : isAsciiDigits mask = true) :
    slashDigits (net ++ '/' :: mask) = some mask := by
  simp only [isAsciiDigits, Bool.and_eq_true, Bool.not_eq_true', List.isEmpty_eq_false_iff,
    List.all_eq_true] at hmask
  have htake : mask.takeWhile isAsciiDigit = mask := List.takeWhile_eq_self_iff.mpr hmask.2
  induction net with
  | nil => rw [List.nil_append, slashDigits, htake, if_pos ⟨rfl, hmask.1⟩]
  | cons c net ih =>
      rw [List.mem_cons, not_or] at hnet
      rw [List.cons_append, slashDigits, if_neg (fun hc => hnet.1 hc.1.symm), ih hnet.2]

theorem bits_le (s : Str) (m : Nat) : bits s m ≤ m := by
  unfold bits
  split
  · exact le_refl m
  · split
    · omega
    · exact le_refl m

/-- What a row's text says of its block: the family, the prefix length and the base address. -/
theorem row_spec {l : Str} {b : Block} (h : entryOf T l = some b) :
    fmax l = b.width ∧ bits l b.width = b.net.length ∧
      ∃ a, baseOf T l = some a ∧ a.length = b.width ∧ b.net = a.take b.net.length := by
  unfold baseOf
  by_cases hslash : '/' ∈ l
  · rw [entryOf_of_subnet hslash] at h
    obtain ⟨net, mask, n, a, hpart, hmask, ha, hle, hwidth, hnet⟩ := subnetOf_eq_some_iff.mp h
    obtain ⟨rfl, hfree⟩ := (partition_eq_found_iff _ _ _ _).mp hpart
    have hlen : b.net.length = n := by rw [hnet, List.length_take, Nat.min_eq_left hle]
    have hdigits : isAsciiDigits mask = true := by
      unfold readMask at hmask
      split at hmask
      · next hm => exact (Bool.and_eq_true_iff.mp hm).1
      · cases hmask
    refine ⟨?_, ?_, a, ?_, hwidth.symm, hlen.symm ▸ hnet⟩
    · have hcolon : ':' ∈ net ++ '/' :: mask ↔ ':' ∈ net := by
        rw [List.mem_append, List.mem_cons, or_iff_left]
        rintro (hc | hc)
        · exact absurd hc (by decide)
        · exact absurd ((readMask_eq_some hmask).2 _ hc) (by decide)
      rw [hwidth, length_of_hostOf ha, fmax]
      simp only [hcolon]
    · rw [bits, slashDigits_append hfree hdigits, hlen]
      simp only
      rw [← (readMask_eq_some hmask).1, hwidth]
      split
      · rfl
      · omega
    · rw [hpart]
      exact ha
  · rw [entryOf_of_bare hslash] at h
    obtain ⟨a, ha, rfl⟩ := Option.map_eq_some_iff.mp h
    refine ⟨(length_of_hostOf ha).symm, ?_, a, ?_, rfl, (List.take_length).symm⟩
    · rw [bits, slashDigits_of_not_mem hslash]
      rfl
    · rw [partition_fst_of_not_mem hslash]
      exact ha

theorem groupOf_row {l : Str} {b : Block} (h : entryOf T l = some b) :
    groupOf l = (b.width, b.net.length) := by
  obtain ⟨hfmax, hbits, -⟩ := row_spec h
  rw [groupOf, hfmax, hbits]

/-- A block lies within another exactly when the other's bits begin its own. -/
theorem subsumes_iff {b b' : Block} :
    (b.width == b'.width && b.net.isPrefixOf b'.net) = true ↔
      ∀ a, b'.Contains a → b.Contains a := by
  rw [Bool.and_eq_true, beq_iff_eq, List.isPrefixOf_iff_prefix]
  constructor
  · rintro ⟨hwidth, hnet⟩ a ⟨hlen, hstart⟩
    exact ⟨hlen.trans hwidth.symm, hnet.trans hstart⟩
  · intro h
    obtain ⟨hlen, hfirst⟩ := h b'.first ⟨b'.length_first, List.prefix_append _ _⟩
    obtain ⟨-, hlast⟩ := h b'.last ⟨b'.length_last, List.prefix_append _ _⟩
    refine ⟨hlen.symm.trans b'.length_first, ?_⟩
    by_cases hle : b.net.length ≤ b'.net.length
    · exact List.prefix_of_prefix_length_le hfirst (List.prefix_append _ _) hle
    · have hwithin : b'.net.length < b.net.length := by omega
      have hfalse := List.prefix_iff_getElem?.mp hfirst _ hwithin
      have htrue := List.prefix_iff_getElem?.mp hlast _ hwithin
      have hroom : 0 < b'.width - b'.net.length := by
        have hle := hfirst.length_le
        rw [b'.length_first] at hle
        omega
      rw [Block.first, List.getElem?_append_right (le_refl _), Nat.sub_self,
        List.getElem?_replicate_of_lt hroom] at hfalse
      rw [Block.last, List.getElem?_append_right (le_refl _), Nat.sub_self,
        List.getElem?_replicate_of_lt hroom, ← hfalse] at htrue
      cases htrue

/-- Among the patterns that are wide enough the base address decides. -/
theorem hit_eq_contained {patterns ps : List Str} {l : Str} {b : Block}
    (hl : entryOf T l = some b)
    (hsub : ∀ s ∈ ps, s ∈ patterns ∧ (fmax s = b.width → bits s b.width ≤ b.net.length))
    (hall : ∀ s ∈ patterns, fmax s = b.width → bits s b.width ≤ b.net.length → s ∈ ps) :
    hit T ps l = contained T patterns l := by
  obtain ⟨-, -, a, hbase, hlen, hnet⟩ := row_spec hl
  simp only [hit, contained, hbase, hl, Option.any_some]
  rw [Bool.eq_iff_iff, List.any_eq_true, List.any_eq_true]
  constructor
  · rintro ⟨s, hs, hany⟩
    obtain ⟨bs, hbs, hcontains⟩ := (Option.any_eq_true _ _).mp hany
    obtain ⟨hwidth, hstart⟩ := of_decide_eq_true hcontains
    obtain ⟨hfmax, hbits, -⟩ := row_spec hbs
    have heq : bs.width = b.width := hwidth.symm.trans hlen
    obtain ⟨hmem, hwide⟩ := hsub s hs
    have hle := hwide (hfmax.trans heq)
    rw [← heq, hbits] at hle
    refine ⟨s, hmem, (Option.any_eq_true _ _).mpr ⟨bs, hbs, ?_⟩⟩
    rw [Bool.and_eq_true, beq_iff_eq, List.isPrefixOf_iff_prefix, hnet]
    exact ⟨heq, List.prefix_take_iff.mpr ⟨hstart, hle⟩⟩
  · rintro ⟨s, hs, hany⟩
    obtain ⟨bs, hbs, hsubsumes⟩ := (Option.any_eq_true _ _).mp hany
    rw [Bool.and_eq_true, beq_iff_eq, List.isPrefixOf_iff_prefix] at hsubsumes
    obtain ⟨hwidth, hstart⟩ := hsubsumes
    obtain ⟨hfmax, hbits, -⟩ := row_spec hbs
    have hle : bits s b.width ≤ b.net.length := by
      rw [← hwidth, hbits]
      exact hstart.length_le
    refine ⟨s, hall s hs (hfmax.trans hwidth) hle, (Option.any_eq_true _ _).mpr ⟨bs, hbs, ?_⟩⟩
    refine decide_eq_true ⟨hlen.trans hwidth.symm, hstart.trans ?_⟩
    rw [hnet]
    exact List.take_prefix _ _

/-- `use` counts the patterns of a family that are wide enough. -/
theorem use_eq (patterns : List Str) (m p : Nat) :
    use patterns m p = patterns.countP (fun s => fmax s == m && decide (bits s m ≤ p)) := by
  have hzero : ∀ qs : List Nat, ((qs.filter (fun q => nq patterns m q != 0)).map
      (nq patterns m)).sum = (qs.map (nq patterns m)).sum := by
    intro qs
    induction qs with
    | nil => rfl
    | cons q qs ih =>
        rw [List.filter_cons]
        split
        · rw [List.map_cons, List.map_cons, List.sum_cons, List.sum_cons, ih]
        · next hq =>
            rw [bne_iff_ne, not_not] at hq
            rw [List.map_cons, List.sum_cons, hq, Nat.zero_add, ih]
  have hcount : ∀ n, ((List.range n).map (nq patterns m)).sum =
      patterns.countP (fun s => fmax s == m && decide (bits s m < n)) := by
    intro n
    induction n with
    | zero => simp
    | succ n ih =>
        rw [List.range_succ, List.map_append, List.sum_append, ih, List.map_singleton,
          List.sum_singleton, nq]
        clear ih hzero
        induction patterns with
        | nil => rfl
        | cons s patterns ih =>
            simp only [List.countP_cons, inBucket, Bool.and_eq_true, beq_iff_eq,
              decide_eq_true_eq] at ih ⊢
            rw [← ih]
            split <;> split <;> split <;> omega
  rw [use, wideEnough, hzero, hcount]
  simp only [Nat.lt_succ_iff]

/-- Every pattern of the family is wide enough when all are in use. -/
theorem wide_of_use_eq {patterns : List Str} {m p : Nat}
    (h : use patterns m p = ntot patterns m) {s : Str} (hs : s ∈ patterns) (hm : fmax s = m) :
    bits s m ≤ p := by
  rw [use_eq, ntot, List.countP_eq_length_filter, List.countP_eq_length_filter] at h
  have hsublist : (patterns.filter fun s => fmax s == m && decide (bits s m ≤ p)).Sublist
      (patterns.filter (fmax · == m)) := by
    refine List.monotone_filter_right patterns fun s hs => ?_
    exact (Bool.and_eq_true_iff.mp hs).1
  have hmem : s ∈ patterns.filter (fmax · == m) := List.mem_filter.mpr ⟨hs, beq_iff_eq.mpr hm⟩
  rw [← hsublist.eq_of_length h] at hmem
  exact of_decide_eq_true (Bool.and_eq_true_iff.mp (List.mem_filter.mp hmem).2).2

theorem not_wide_of_use_eq_zero {patterns : List Str} {m p : Nat} (h : use patterns m p = 0)
    {s : Str} (hs : s ∈ patterns) (hm : fmax s = m) : ¬ bits s m ≤ p := by
  rw [use_eq, List.countP_eq_zero] at h
  exact fun hle => h s hs (Bool.and_eq_true_iff.mpr ⟨beq_iff_eq.mpr hm, decide_eq_true hle⟩)

theorem mem_wideEnough {patterns : List Str} {m p q : Nat} :
    q ∈ wideEnough patterns m p ↔ q ≤ p ∧ ∃ s ∈ patterns, fmax s = m ∧ bits s m = q := by
  have hpos : nq patterns m q ≠ 0 ↔ ∃ s ∈ patterns, fmax s = m ∧ bits s m = q := by
    rw [← Nat.pos_iff_ne_zero, nq, List.countP_pos_iff]
    simp only [inBucket, Bool.and_eq_true, beq_iff_eq]
  rw [wideEnough, List.mem_filter, List.mem_range, Nat.lt_succ_iff, bne_iff_ne, hpos]

/-- The buckets a group searches exist, and hold the patterns that are wide enough for it. -/
theorem mapM_bucketFile {patterns : List Str} {m p : Nat} (hp : p ≤ m)
    (hmode : modeOf patterns m p = .some (wideEnough patterns m p)) :
    (wideEnough patterns m p).mapM (bucketFile patterns m) =
      some ((wideEnough patterns m p).map fun q => unlines (patterns.filter (inBucket m q))) := by
  have hlt : ∀ q ∈ wideEnough patterns m p, q < m := by
    intro q hq
    obtain ⟨hle, s, hs, hm, hbits⟩ := mem_wideEnough.mp hq
    refine lt_of_le_of_ne (hle.trans hp) ?_
    rintro rfl
    have hall : use patterns q p = ntot patterns q := by
      rw [use_eq, ntot]
      refine List.countP_congr fun s' _ => ?_
      rw [Bool.and_eq_true, and_iff_left_iff_imp]
      exact fun _ => decide_eq_true ((bits_le s' q).trans hle)
    have hlen : patterns.length ≠ 0 := List.length_pos_of_mem hs |>.ne'
    rw [modeOf, if_pos ⟨hall, hlen⟩] at hmode
    cases hmode
  refine mapM_eq_some_map fun q hq => ?_
  have hne : nq patterns m q ≠ 0 := bne_iff_ne.mp (List.mem_filter.mp hq).2
  rw [bucketFile, if_pos ⟨hlt q hq, hne⟩]

section Groups

variable {patternFile : Str} {grepcidr : Grepcidr}

/-- Rows written to a file are its pattern rows again. -/
theorem patternRows_unlines {ls : List Str} (h : Rows T ls) : patternRows (unlines ls) = ls := by
  have hclean : ∀ l ∈ ls, ∀ c, (isHexDigit c || c == ':' || c == '.' || c == '/') = false →
      c ∉ l := fun l hl c hc => by
    obtain ⟨b, hb⟩ := h l hl
    exact not_mem_of_entryOf hb hc
  rw [patternRows, lines_unlines fun l hl => hclean l hl '\n' (by decide)]
  have hstrip : ls.map stripCr = ls := by
    refine (List.map_congr_left fun l hl => ?_).trans (List.map_id ls)
    rw [stripCr, if_neg]
    · rfl
    · intro hlast
      exact hclean l hl '\r' (by decide) (List.mem_of_getLast? hlast)
  rw [hstrip, List.filter_eq_self]
  intro l hl
  obtain ⟨b, hb⟩ := h l hl
  obtain ⟨hne, -⟩ := clean_of_entryOf hb
  obtain ⟨c, hc⟩ := List.exists_mem_of_ne_nil l hne
  refine List.any_eq_true.mpr ⟨c, hc, ?_⟩
  rw [Bool.not_eq_true', Bool.eq_false_iff]
  intro hblank
  simp only [isBlank, Bool.or_eq_true, beq_iff_eq] at hblank
  rcases hblank with (rfl | rfl) | rfl <;> exact hclean l hl _ (by decide) hc

/-- What `grepcidr` prints of a written file of rows. -/
theorem grepcidr_unlines (hprints : PrintsMisses T grepcidr) {ls : List Str} {out : Str}
    (hrun : grepcidr patternFile (unlines ls) = some out) (hpat : Rows T (patternRows patternFile))
    (hne : patternRows patternFile ≠ []) (hls : Rows T ls) :
    out = unlines (ls.filter fun l => !hit T (patternRows patternFile) l) := by
  have hfree : ∀ l ∈ ls, '\n' ∉ l := fun l hl => by
    obtain ⟨b, hb⟩ := hls l hl
    exact not_mem_of_entryOf hb (by decide)
  have hout := hprints hrun hpat (by rwa [lines_unlines hfree])
  rw [hout, segments_unlines hfree, List.filter_map, unlines, List.flatMap_def]
  congr 2
  refine List.filter_congr fun l hl => ?_
  rw [Function.comp_apply, chomp_append (hfree l hl), decide_eq_true hne, Bool.true_and]

/-- The patterns a group of a mixed plan is searched for. -/
def searched (patterns : List Str) (m p : Nat) : List Str :=
  (wideEnough patterns m p).flatMap fun q => patterns.filter (inBucket m q)

theorem mem_searched {patterns : List Str} {m p : Nat} {s : Str} :
    s ∈ searched patterns m p ↔ s ∈ patterns ∧ fmax s = m ∧ bits s m ≤ p := by
  simp only [searched, List.mem_flatMap, List.mem_filter, inBucket, Bool.and_eq_true, beq_iff_eq,
    mem_wideEnough]
  constructor
  · rintro ⟨q, ⟨hle, -⟩, hs, hm, rfl⟩
    exact ⟨hs, hm, hle⟩
  · rintro ⟨hs, hm, hle⟩
    exact ⟨bits s m, ⟨hle, s, hs, hm, rfl⟩, hs, hm, rfl⟩

theorem flatten_map_unlines {α : Type} (xs : List α) (f : α → List Str) :
    (xs.map fun x => unlines (f x)).flatten = unlines (xs.flatMap f) := by
  induction xs with
  | nil => rfl
  | cons x xs ih =>
      rw [List.map_cons, List.flatten_cons, List.flatMap_cons, unlines_append, ih]

theorem modeOf_some {patterns : List Str} {m p : Nat} {qs : List Nat}
    (h : modeOf patterns m p = .some qs) :
    qs = wideEnough patterns m p ∧ use patterns m p ≠ 0 := by
  unfold modeOf at h
  split at h
  · cases h
  · split at h
    · cases h
    · next huse =>
        injection h with h
        exact ⟨h.symm, huse⟩

theorem modeOf_all {patterns : List Str} {m p : Nat} (h : modeOf patterns m p = .all) :
    use patterns m p = ntot patterns m ∧ patterns ≠ [] := by
  unfold modeOf at h
  split at h
  · next hall => exact ⟨hall.1, fun hnil => hall.2 (by rw [hnil]; rfl)⟩
  · split at h <;> cases h

theorem modeOf_keep {patterns : List Str} {m p : Nat} (h : modeOf patterns m p = .keep) :
    use patterns m p = 0 := by
  unfold modeOf at h
  split at h
  · cases h
  · split at h
    · assumption
    · cases h

/-- What a group leaves: its rows that no pattern row contains. -/
theorem runGroup_spec (hprints : PrintsMisses T grepcidr) {input : List Str} {g : Nat × Nat}
    {out : Str} (hpat : Rows T (patternRows patternFile)) (hin : Rows T input)
    (hg : g ∈ input.map groupOf) (hrun : runGroup grepcidr patternFile input g = some out) :
    out = unlines ((input.filter (groupOf · = g)).filter
      fun l => !contained T (patternRows patternFile) l) := by
  obtain ⟨l₀, hl₀, rfl⟩ := List.mem_map.mp hg
  have hrows : Rows T (input.filter (groupOf · = groupOf l₀)) :=
    fun l hl => hin l (List.mem_filter.mp hl).1
  have hgroup : ∀ {ps : List Str},
      (∀ s ∈ ps, s ∈ patternRows patternFile ∧
        (fmax s = (groupOf l₀).1 → bits s (groupOf l₀).1 ≤ (groupOf l₀).2)) →
      (∀ s ∈ patternRows patternFile, fmax s = (groupOf l₀).1 →
        bits s (groupOf l₀).1 ≤ (groupOf l₀).2 → s ∈ ps) →
      (input.filter (groupOf · = groupOf l₀)).filter (fun l => !hit T ps l) =
        (input.filter (groupOf · = groupOf l₀)).filter
          fun l => !contained T (patternRows patternFile) l := by
    intro ps hsub hall
    refine List.filter_congr fun l hl => ?_
    obtain ⟨hmem, heq⟩ := List.mem_filter.mp hl
    obtain ⟨b, hb⟩ := hin l hmem
    rw [decide_eq_true_eq, groupOf_row hb] at heq
    rw [← heq] at hsub hall
    rw [hit_eq_contained hb hsub hall]
  unfold runGroup at hrun
  simp only at hrun
  cases hmode : modeOf (patternRows patternFile) (groupOf l₀).1 (groupOf l₀).2 with
  | keep =>
      rw [hmode] at hrun
      cases hrun
      rw [← @hgroup [] (fun s hs => by cases hs) fun s hs hm hle =>
        (not_wide_of_use_eq_zero (modeOf_keep hmode) hs hm hle).elim]
      simp [hit]
  | all =>
      rw [hmode] at hrun
      obtain ⟨huse, hne⟩ := modeOf_all hmode
      rw [grepcidr_unlines hprints hrun hpat hne hrows,
        hgroup (fun s hs => ⟨hs, wide_of_use_eq huse hs⟩) fun s hs _ _ => hs]
  | some qs =>
      rw [hmode] at hrun
      obtain ⟨rfl, huse⟩ := modeOf_some hmode
      have hwide : (groupOf l₀).2 ≤ (groupOf l₀).1 := bits_le l₀ _
      have hfiles := mapM_bucketFile hwide hmode
      simp only [hfiles, Option.bind_eq_bind, Option.bind_some, flatten_map_unlines] at hrun
      rw [← searched] at hrun
      have hsearched : Rows T (searched (patternRows patternFile) (groupOf l₀).1 (groupOf l₀).2) :=
        fun s hs => hpat s (mem_searched.mp hs).1
      have hne : searched (patternRows patternFile) (groupOf l₀).1 (groupOf l₀).2 ≠ [] := by
        rw [use_eq, ← Nat.pos_iff_ne_zero, List.countP_pos_iff] at huse
        obtain ⟨s, hs, hwide⟩ := huse
        rw [Bool.and_eq_true, beq_iff_eq, decide_eq_true_eq] at hwide
        exact List.ne_nil_of_mem (mem_searched.mpr ⟨hs, hwide⟩)
      have hback := patternRows_unlines hsearched
      rw [grepcidr_unlines hprints hrun (by rwa [hback]) (by rwa [hback]) hrows, hback,
        hgroup (fun s hs => ⟨(mem_searched.mp hs).1, fun _ => (mem_searched.mp hs).2.2⟩)
          fun s hs hm hle => mem_searched.mpr ⟨hs, hm, hle⟩]

theorem isSome_runGroup (hruns : ∀ p f, (grepcidr p f).isSome = true) (input : List Str)
    {g : Nat × Nat} (hg : g ∈ input.map groupOf) :
    (runGroup grepcidr patternFile input g).isSome = true := by
  obtain ⟨l₀, -, rfl⟩ := List.mem_map.mp hg
  unfold runGroup
  simp only
  cases hmode : modeOf (patternRows patternFile) (groupOf l₀).1 (groupOf l₀).2 with
  | keep => rfl
  | all => exact hruns _ _
  | some qs =>
      obtain ⟨rfl, -⟩ := modeOf_some hmode
      have hwide : (groupOf l₀).2 ≤ (groupOf l₀).1 := bits_le l₀ _
      have hfiles := mapM_bucketFile hwide hmode
      simp only [hfiles, Option.bind_eq_bind, Option.bind_some]
      exact hruns _ _

/-- A pattern file with text in it has a pattern row. -/
theorem patternRows_ne_nil (h : hasText patternFile = true) : patternRows patternFile ≠ [] := by
  obtain ⟨c, hc, hspace⟩ := List.any_eq_true.mp h
  have hne : ∀ d, isSpaceC d = true → c ≠ d := by
    rintro d hd rfl
    simp [hd] at hspace
  obtain ⟨l, hl, hcl⟩ := exists_line_of_mem hc (hne '\n' (by decide))
  refine List.ne_nil_of_mem (List.mem_filter.mpr ⟨List.mem_map_of_mem hl, ?_⟩)
  refine List.any_eq_true.mpr ⟨c, mem_stripCr hcl (hne '\r' (by decide)), ?_⟩
  rw [Bool.not_eq_true', Bool.eq_false_iff]
  intro hblank
  simp only [isBlank, Bool.or_eq_true, beq_iff_eq] at hblank
  rcases hblank with (rfl | rfl) | rfl <;> exact hne _ (by decide) rfl

/-- Without a row wider than a host every pattern is wide enough for every row. -/
theorem hit_of_hosts {patterns : List Str} {l : Str} {b : Block} (hl : entryOf T l = some b)
    (hhost : widerThanHost l = false) : hit T patterns l = contained T patterns l := by
  obtain ⟨hfmax, hbits, -⟩ := row_spec hl
  have hfull : b.net.length = b.width := by
    refine le_antisymm b.le ?_
    rw [← hbits, bits]
    rw [widerThanHost, hfmax] at hhost
    cases hds : slashDigits l with
    | none => exact le_refl _
    | some ds =>
        rw [hds, Option.any_some, decide_eq_false_iff_not] at hhost
        simp only
        rw [if_neg hhost]
  refine hit_eq_contained hl (fun s hs => ⟨hs, fun _ => ?_⟩) fun s hs _ _ => hs
  rw [hfull]
  exact bits_le _ _

variable {order : List (Nat × Nat) → List (Nat × Nat)}

/-- The prune writes the rows of the input that no pattern row contains, as they stand in the
input, and it writes a file when `grepcidr` always ends well. -/
theorem dedup_eq_filter (hprints : PrintsMisses T grepcidr) (horder : ∀ gs, (order gs).Perm gs)
    (patternFile inputFile : Str) (hpat : Rows T (patternRows patternFile))
    (hin : Rows T (lines inputFile)) :
    (∀ out, pfbCidrDedup grepcidr order patternFile inputFile = some out →
      out = ((segments inputFile).filter
        fun seg => !contained T (patternRows patternFile) (chomp seg)).flatten) ∧
      ((∀ p f, (grepcidr p f).isSome = true) →
        (pfbCidrDedup grepcidr order patternFile inputFile).isSome = true) ∧
      ∀ l ∈ lines inputFile, contained T (patternRows patternFile) l = true ↔
        ∃ s ∈ patternRows patternFile, ∃ b b', entryOf T s = some b ∧ entryOf T l = some b' ∧
          ∀ a, b'.Contains a → b.Contains a := by
  have hgroups : ∀ g ∈ order ((lines inputFile).map groupOf).dedup,
      g ∈ (lines inputFile).map groupOf := fun g hg => List.mem_dedup.mp ((horder _).mem_iff.mp hg)
  refine ⟨fun out hrun => ?_, fun hruns => ?_, fun l hl => ?_⟩
  · unfold pfbCidrDedup at hrun
    simp only at hrun
    split at hrun
    · next hfast =>
        simp only [Bool.and_eq_true, Bool.not_eq_true', List.any_eq_false, Bool.not_eq_true]
          at hfast
        rw [hprints hrun hpat hin, decide_eq_true (patternRows_ne_nil hfast.2)]
        refine congrArg List.flatten (List.filter_congr fun seg hseg => ?_)
        have hmem : chomp seg ∈ lines inputFile := List.mem_map_of_mem hseg
        obtain ⟨b, hb⟩ := hin _ hmem
        rw [Bool.true_and, hit_of_hosts hb (hfast.1 _ hmem)]
    · simp only [Option.bind_eq_bind] at hrun
      obtain ⟨kept, hkept, hout⟩ := Option.bind_eq_some_iff.mp hrun
      cases hout
      have hmap := eq_map_of_mapM hkept fun g hg out hrun =>
        runGroup_spec hprints hpat hin (hgroups g hg) hrun
      have hprint := reprint_eq (lines kept.flatten) inputFile 0
      rw [Nat.zero_add, Nat.zero_add] at hprint
      rw [hprint]
      refine congrArg List.flatten (List.filter_congr fun seg hseg => ?_)
      have hmem : chomp seg ∈ lines inputFile := List.mem_map_of_mem hseg
      rw [hmap, flatten_map_unlines, lines_unlines, Bool.eq_iff_iff, decide_eq_true_eq]
      · simp only [List.mem_flatMap, List.mem_filter, decide_eq_true_eq]
        constructor
        · rintro ⟨g, -, -, hout⟩
          exact hout
        · intro hout
          refine ⟨groupOf (chomp seg), (horder _).mem_iff.mpr ?_, ⟨hmem, rfl⟩, hout⟩
          exact List.mem_dedup.mpr (List.mem_map_of_mem hmem)
      · intro l hl
        obtain ⟨g, -, hl⟩ := List.mem_flatMap.mp hl
        exact not_mem_of_mem_lines (List.mem_filter.mp (List.mem_filter.mp hl).1).1
  · unfold pfbCidrDedup
    simp only
    split
    · exact hruns _ _
    · have hsome := isSome_mapM (f := runGroup grepcidr patternFile (lines inputFile))
        fun g hg => isSome_runGroup hruns _ (hgroups g hg)
      obtain ⟨kept, hkept⟩ := Option.isSome_iff_exists.mp hsome
      rw [hkept]
      rfl
  · simp only [contained, List.any_eq_true, Option.any_eq_true, subsumes_iff]
    constructor
    · rintro ⟨s, hs, b, hb, b', hb', hwithin⟩
      exact ⟨s, hs, b, b', hb, hb', hwithin⟩
    · rintro ⟨s, hs, b, b', hb, hb', hwithin⟩
      exact ⟨s, hs, b, hb, b', hb', hwithin⟩

end Groups

/-- A `grepcidr` that does what the prune relies on. -/
def grepMisses (T : Ipv6Text) : Grepcidr := fun patternFile inputFile =>
  some ((segments inputFile).filter fun seg =>
    patternRows patternFile ≠ [] && !hit T (patternRows patternFile) (chomp seg)).flatten

theorem grepMisses_printsMisses : PrintsMisses T (grepMisses T) := by
  intro patternFile inputFile out hrun _ _
  exact (Option.some.inj hrun).symm

theorem rows_of_all {ls : List Str} (h : ls.all (fun l => (entryOf T l).isSome) = true) :
    Rows T ls :=
  fun l hl => Option.isSome_iff_exists.mp (List.all_eq_true.mp h l hl)

end Spec

/-- A network within the pattern goes, one that is wider than it stays and so does its unfinished
line. -/
theorem dedup_eq_filter_wider :
    pfbCidrDedup (grepMisses fullForm) id "10.0.0.0/8\r\n\n".toList
      "10.1.0.0/16\n10.0.0.0/7".toList = some "10.0.0.0/7".toList := by
  obtain ⟨hout, hsome, -⟩ := @dedup_eq_filter fullForm _ id grepMisses_printsMisses
    (fun gs => List.Perm.refl gs) "10.0.0.0/8\r\n\n".toList "10.1.0.0/16\n10.0.0.0/7".toList
    (rows_of_all (by decide)) (rows_of_all (by decide))
  obtain ⟨out, hrun⟩ := Option.isSome_iff_exists.mp (hsome fun _ _ => rfl)
  rw [hrun, hout out hrun]
  exact congrArg some (by decide)

end PfBlockerNG.CidrDedup
