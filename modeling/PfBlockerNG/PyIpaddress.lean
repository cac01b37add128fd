import PfBlockerNG.IpText
import PfBlockerNG.WhatwgIpv4

/-!
The addresses and networks of Python's `ipaddress`: the texts it reads, the one text it writes
for an address, and membership.
-/

namespace PfBlockerNG.PyIpaddress

open PfBlockerNG.IpText
open PfBlockerNG.PyText
open PfBlockerNG.Strings
open PfBlockerNG.WhatwgIpv4

/-- `IPv4Address`, and `IPv6Address` with its scope id. -/
inductive Address where
  | v4 (ip : Nat)
  | v6 (ip : Nat) (scope : Option Str)
  deriving DecidableEq, Repr

def ofDigits (base : Nat) (ds : List Nat) : Nat := ds.foldl (fun n d => base * n + d) 0

/-- The last `count` digits of a number. -/
def digitsOf (base : Nat) : Nat → Nat → List Nat
  | 0, _ => []
  | count + 1, n => digitsOf base count (n / base) ++ [n % base]

/-! ### Reading -/

/-- `IPv4Address._ip_int_from_string`. -/
def ipv4Int (s : Str) : Option Nat := (readQuad s).map (ofDigits 256)

/-- `'%x' % n`. -/
def hexText (n : Nat) : Str := Nat.toDigits 16 n

/-- `_parse_hextet`. -/
def parseHextet (s : Str) : Option Nat :=
  if s.all isHexDigit && s.length ≤ 4 && !s.isEmpty then some (digitsValue 16 s) else none

/-- The parts with an IPv4 ending as two hextets. -/
def hexEnding (parts : List Str) : Option (List Str) :=
  match parts.getLast? with
  | some last =>
      if '.' ∈ last then
        (ipv4Int last).map fun n =>
          parts.dropLast ++ [hexText (n / 65536 % 65536), hexText (n % 65536)]
      else some parts
  | none => some parts

/-- The places of the empty parts, the endpoints disregarded. -/
def skips (parts : List Str) : List Nat :=
  (((parts.drop 1).dropLast.zipIdx 1).filter fun part => part.1.isEmpty).map Prod.snd

/-- How many parts stand before and after the skipped zeros. -/
def layout (parts : List Str) : Option (Nat × Nat) :=
  let opened := parts.head? = some []
  let closed := parts.getLast? = some []
  match skips parts with
  | [] => if parts.length = 8 ∧ ¬ opened ∧ ¬ closed then some (8, 0) else none
  | [i] =>
      let hi := if opened then i - 1 else i
      let lo := if closed then parts.length - i - 2 else parts.length - i - 1
      if (opened ∧ hi ≠ 0) ∨ (closed ∧ lo ≠ 0) ∨ 8 < hi + lo + 1 then none else some (hi, lo)
  | _ => none

/-- `IPv6Address._ip_int_from_string`. -/
def ipv6Int (s : Str) : Option Nat :=
  let parts := s.splitOn ':'
  if parts.length < 3 then none
  else do
    let parts ← hexEnding parts
    if 9 < parts.length then none
    else
      let (hi, lo) ← layout parts
      let high ← (parts.take hi).mapM parseHextet
      let low ← (parts.drop (parts.length - lo)).mapM parseHextet
      pure (ofDigits 65536 (high ++ List.replicate (8 - (hi + lo)) 0 ++ low))

/-- `_split_scope_id`. -/
def splitScopeId (s : Str) : Option (Str × Option Str) :=
  match partition '%' s with
  | (addr, false, _) => some (addr, none)
  | (addr, true, scope) =>
      if scope.isEmpty || scope.contains '%' then none else some (addr, some scope)

def ipv4Address (s : Str) : Option Address :=
  if '/' ∈ s then none else (ipv4Int s).map .v4

def ipv6Address (s : Str) : Option Address :=
  if '/' ∈ s then none
  else do
    let (addr, scope) ← splitScopeId s
    let ip ← ipv6Int addr
    pure (.v6 ip scope)

/-- `ip_address`. -/
def ipAddress (s : Str) : Option Address := (ipv4Address s).or (ipv6Address s)

/-! ### Writing -/

/-- Start and length of the first longest run of `'0'` in the list, as `_compress_hextets`
finds them: `at` parts are behind, the last `len` of them zeros. -/
def longestZeros (place len : Nat) (best : Nat × Nat) : List Str → Nat × Nat
  | [] => best
  | h :: rest =>
      if h = ['0'] then
        longestZeros (place + 1) (len + 1)
          (if best.2 < len + 1 then (place - len, len + 1) else best) rest
      else longestZeros (place + 1) 0 best rest

/-- `_compress_hextets`. -/
def compressHextets (hextets : List Str) : List Str :=
  let (start, len) := longestZeros 0 0 (0, 0) hextets
  if 1 < len then
    (if start = 0 then [[]] else hextets.take start) ++ [[]] ++
      (if start + len = hextets.length then [[]] else hextets.drop (start + len))
  else hextets

/-- `IPv6Address._string_from_ip_int`. -/
def ipv6Text (ip : Nat) : Str :=
  [':'].intercalate (compressHextets ((digitsOf 65536 8 ip).map hexText))

/-- The scope id as it stands behind the address. -/
def scopeText : Option Str → Str
  | none => []
  | some scope => '%' :: scope

/-- `str(address)`. -/
def Address.text : Address → Str
  | .v4 ip => quadText (digitsOf 256 4 ip)
  | .v6 ip scope => ipv6Text ip ++ scopeText scope

/-! ### Networks -/

/-- The width of an address, `max_prefixlen` of its networks. -/
def Address.width : Address → Nat
  | .v4 _ => 32
  | .v6 _ _ => 128

def Address.ip : Address → Nat
  | .v4 ip => ip
  | .v6 ip _ => ip

/-- An `IPv4Network` or `IPv6Network`. -/
structure Network where
  networkAddress : Address
  prefixlen : Nat
  deriving DecidableEq, Repr

/-- `_prefix_from_prefix_string`; `int` refuses more than 4300 digits. -/
def prefixFromPrefixString (width : Nat) (s : Str) : Option Nat :=
  if isAsciiDigits s && s.length ≤ 4300 && digitsValue 10 s ≤ width then some (digitsValue 10 s)
  else none

/-- `_prefix_from_ip_int` of an IPv4 mask. -/
def prefixFromIpInt (ip : Nat) : Option Nat :=
  (List.range 33).find? fun len => ip = (2 ^ len - 1) * 2 ^ (32 - len)

/-- `_make_netmask` of an IPv4 network: a length, a netmask or a hostmask. -/
def ipv4Prefix (s : Str) : Option Nat :=
  (prefixFromPrefixString 32 s).or
    ((ipv4Int s).bind fun ip =>
      (prefixFromIpInt ip).or (prefixFromIpInt (2 ^ 32 - 1 - ip)))

/-- The first bits of an address, as a network address: the scope id goes with a host bit. -/
def Address.masked (a : Address) (len : Nat) : Address :=
  let ip := a.ip / 2 ^ (a.width - len) * 2 ^ (a.width - len)
  if ip = a.ip then a
  else match a with
    | .v4 _ => .v4 ip
    | .v6 _ _ => .v6 ip none

/-- `IPv4Network` or `IPv6Network` of a text, not strict. -/
def networkOf (read : Str → Option Address) (length : Str → Option Nat) (s : Str) :
    Option Network :=
  match s.splitOn '/' with
  | [addr] => (read addr).map fun a => ⟨a, a.width⟩
  | [addr, mask] => do
      let a ← read addr
      let len ← length mask
      pure ⟨a.masked len, len⟩
  | _ => none

/-- `ip_network(s, strict=False)`. -/
def ipNetwork (s : Str) : Option Network :=
  (networkOf ipv4Address ipv4Prefix s).or (networkOf ipv6Address (prefixFromPrefixString 128) s)

/-- `address in network`. -/
def Network.contains (net : Network) (a : Address) : Bool :=
  a.width == net.networkAddress.width &&
    a.ip / 2 ^ (a.width - net.prefixlen) * 2 ^ (a.width - net.prefixlen) == net.networkAddress.ip

/-! ### The text of an address reads back -/

section Digits

variable {base : Nat}

theorem length_digitsOf (base count n : Nat) : (digitsOf base count n).length = count := by
  induction count generalizing n with
  | zero => rfl
  | succ count ih => rw [digitsOf, List.length_append, ih, List.length_singleton]

theorem lt_of_mem_digitsOf {count n d : Nat} (hbase : 0 < base) (hd : d ∈ digitsOf base count n) :
    d < base := by
  induction count generalizing n with
  | zero => exact absurd hd List.not_mem_nil
  | succ count ih =>
      rw [digitsOf, List.mem_append, List.mem_singleton] at hd
      rcases hd with hd | rfl
      · exact ih hd
      · exact Nat.mod_lt n hbase

theorem ofDigits_concat (base : Nat) (ds : List Nat) (d : Nat) :
    ofDigits base (ds ++ [d]) = base * ofDigits base ds + d := by
  rw [ofDigits, List.foldl_concat]
  rfl

theorem ofDigits_digitsOf (base count n : Nat) :
    ofDigits base (digitsOf base count n) = n % base ^ count := by
  induction count generalizing n with
  | zero => rw [Nat.pow_zero, Nat.mod_one]; rfl
  | succ count ih =>
      rw [digitsOf, ofDigits_concat, ih, Nat.pow_succ', Nat.mod_mul, Nat.add_comm]

theorem digitsOf_ofDigits {ds : List Nat} (h : ∀ d ∈ ds, d < base) :
    digitsOf base ds.length (ofDigits base ds) = ds := by
  induction ds using List.reverseRecOn with
  | nil => rfl
  | append_singleton ds d ih =>
      have hd : d < base := h d (by simp)
      have hrest := ih fun e he => h e (by simp [he])
      rw [List.length_append, List.length_singleton, digitsOf, ofDigits_concat,
        Nat.mul_add_div (by omega), Nat.div_eq_of_lt hd, Nat.add_zero, hrest, Nat.mul_add_mod,
        Nat.mod_eq_of_lt hd]

theorem ofDigits_lt {ds : List Nat} (h : ∀ d ∈ ds, d < base) :
    ofDigits base ds < base ^ ds.length := by
  induction ds using List.reverseRecOn with
  | nil => exact Nat.one_pos
  | append_singleton ds d ih =>
      have hd : d < base := h d (by simp)
      have hrest := ih fun e he => h e (by simp [he])
      rw [ofDigits_concat, List.length_append, List.length_singleton, Nat.pow_succ']
      calc base * ofDigits base ds + d < base * (ofDigits base ds + 1) := by
            rw [Nat.mul_add]; omega
        _ ≤ base * base ^ ds.length := Nat.mul_le_mul_left _ hrest

end Digits

section Hextets

theorem digitChar_hex : ∀ d < 16,
    digitValue (Nat.digitChar d) = d ∧ isHexDigit (Nat.digitChar d) = true := by
  decide

theorem hexText_spec (n : Nat) :
    digitsValue 16 (hexText n) = n ∧ (hexText n).all isHexDigit = true := by
  induction n using Nat.strongRecOn with
  | ind n ih =>
      unfold hexText at ih ⊢
      rcases Nat.lt_or_ge n 16 with hlt | hge
      · rw [Nat.toDigits_of_lt_base hlt]
        obtain ⟨hvalue, hhex⟩ := digitChar_hex n hlt
        exact ⟨by simpa [digitsValue] using hvalue, by simpa using hhex⟩
      · rw [Nat.toDigits_of_base_le (by omega) hge]
        obtain ⟨hvalue, hhex⟩ := digitChar_hex (n % 16) (Nat.mod_lt _ (by omega))
        obtain ⟨hrest, hall⟩ := ih (n / 16) (by omega)
        refine ⟨?_, by simp [hall, hhex]⟩
        rw [digitsValue_concat, hrest, hvalue]
        omega

theorem hexText_ne_nil (n : Nat) : hexText n ≠ [] := Nat.toDigits_ne_nil

theorem not_mem_hexText {c : Char} (hc : isHexDigit c = false) (n : Nat) : c ∉ hexText n := by
  intro hmem
  have := List.all_eq_true.mp (hexText_spec n).2 c hmem
  rw [hc] at this
  exact Bool.false_ne_true this

theorem parseHextet_hexText {n : Nat} (h : n < 65536) : parseHextet (hexText n) = some n := by
  have hlen : (hexText n).length ≤ 4 := (Nat.length_toDigits_le_iff (by omega) (by omega)).mpr h
  obtain ⟨hvalue, hall⟩ := hexText_spec n
  rw [parseHextet, hvalue, if_pos]
  simp [hall, hlen, hexText_ne_nil]

theorem mapM_parseHextet {hs : List Nat} (h : ∀ n ∈ hs, n < 65536) :
    (hs.map hexText).mapM parseHextet = some hs := by
  induction hs with
  | nil => rfl
  | cons n hs ih =>
      rw [List.map_cons, List.mapM_cons, parseHextet_hexText (h n (by simp)),
        ih fun m hm => h m (by simp [hm])]
      rfl

end Hextets

section Compression

/-- The list has a run of zeros at a place. -/
def ZeroRun (hextets : List Str) (run : Nat × Nat) : Prop :=
  run.1 + run.2 ≤ hextets.length ∧
    ∀ i, run.1 ≤ i → i < run.1 + run.2 → hextets[i]? = some ['0']

theorem longestZeros_run (before : List Str) {rest : List Str} {len : Nat} {best : Nat × Nat}
    (hlen : len ≤ before.length) (hrun : ZeroRun (before ++ rest) (before.length - len, len))
    (hbest : ZeroRun (before ++ rest) best) :
    ZeroRun (before ++ rest) (longestZeros before.length len best rest) := by
  induction rest generalizing before len best with
  | nil => exact hbest
  | cons h rest ih =>
      have hnext : before ++ h :: rest = (before ++ [h]) ++ rest := by simp
      have hplace : (before ++ [h]).length = before.length + 1 := by simp
      unfold longestZeros
      rw [hnext] at hrun hbest ⊢
      rw [← hplace]
      split
      · rename_i hzero
        have hrun' : ZeroRun ((before ++ [h]) ++ rest) (before.length - len, len + 1) := by
          refine ⟨by simp; omega, fun i hi hlt => ?_⟩
          rcases Nat.lt_or_ge i before.length with hb | hb
          · exact hrun.2 i hi (by omega)
          · obtain rfl : i = before.length := by simp only at hlt; omega
            simp [hzero]
        apply ih (before ++ [h])
        · omega
        · rw [hplace, Nat.add_sub_add_right]
          exact hrun'
        · split
          · exact hrun'
          · exact hbest
      · apply ih (before ++ [h])
        · exact Nat.zero_le _
        · exact ⟨by simp, fun i hi hlt => by simp only at hi hlt; omega⟩
        · exact hbest

theorem zeroRun_longestZeros (hextets : List Str) :
    ZeroRun hextets (longestZeros 0 0 (0, 0) hextets) := by
  have hnone : ZeroRun hextets (0, 0) := ⟨Nat.zero_le _, fun i _ hlt => absurd hlt (by simp)⟩
  exact longestZeros_run [] (le_refl 0) hnone hnone

/-- What stands on one side of a `::`. -/
def ends (hs : List Nat) : List Str := if hs = [] then [[]] else hs.map hexText

theorem ends_ne_nil (hs : List Nat) : ends hs ≠ [] := by
  unfold ends
  split
  · exact List.cons_ne_nil _ _
  · rename_i h
    simpa using h

theorem not_mem_of_mem_ends {hs : List Nat} {c : Char} (hc : isHexDigit c = false) {part : Str}
    (h : part ∈ ends hs) : c ∉ part := by
  unfold ends at h
  split at h
  · rw [List.mem_singleton.mp h]
    exact List.not_mem_nil
  · obtain ⟨n, _, rfl⟩ := List.mem_map.mp h
    exact not_mem_hexText hc n

/-- A compressed text keeps its hextets, or has one run of zeros for a `::`. -/
theorem compressHextets_cases (hs : List Nat) :
    compressHextets (hs.map hexText) = hs.map hexText ∨
      ∃ front zeros back, hs = front ++ List.replicate zeros 0 ++ back ∧ 2 ≤ zeros ∧
        compressHextets (hs.map hexText) = ends front ++ [[]] ++ ends back := by
  obtain ⟨hle, hzeros⟩ := zeroRun_longestZeros (hs.map hexText)
  unfold compressHextets
  generalize longestZeros 0 0 (0, 0) (hs.map hexText) = run at hle hzeros
  obtain ⟨start, len⟩ := run
  dsimp only at hle hzeros ⊢
  rw [List.length_map] at hle
  split
  · rename_i hlen
    refine Or.inr ⟨hs.take start, len, hs.drop (start + len), ?_, hlen, ?_⟩
    · have hmid : (hs.drop start).take len = List.replicate len 0 := by
        apply List.eq_replicate_iff.mpr
        refine ⟨by simp; omega, fun n hn => ?_⟩
        obtain ⟨i, hi, hget⟩ := List.getElem_of_mem hn
        rw [List.length_take, List.length_drop] at hi
        rw [List.getElem_take, List.getElem_drop] at hget
        have hzero := hzeros (start + i) (by omega) (by omega)
        rw [List.getElem?_map, List.getElem?_eq_getElem (by omega), Option.map_some, hget] at hzero
        have hvalue := (hexText_spec n).1
        rw [Option.some.inj hzero] at hvalue
        exact hvalue.symm
      rw [← hmid, List.append_assoc, ← List.drop_drop, List.take_append_drop,
        List.take_append_drop]
    · have hfront : (hs.take start = []) ↔ start = 0 := by
        rw [List.take_eq_nil_iff]
        constructor
        · rintro (h | h)
          · exact h
          · rw [h, List.length_nil] at hle; omega
        · exact Or.inl
      have hback : (hs.drop (start + len) = []) ↔ start + len = (hs.map hexText).length := by
        rw [List.drop_eq_nil_iff, List.length_map]
        omega
      simp only [ends, hfront, hback, List.map_take, List.map_drop]
  · exact Or.inl rfl

theorem skips_nonempty {parts : List Str} (h : ∀ part ∈ parts, part ≠ []) : skips parts = [] := by
  unfold skips
  rw [List.map_eq_nil_iff, List.filter_eq_nil_iff]
  rintro ⟨part, i⟩ hmem hempty
  have hin := List.fst_mem_of_mem_zipIdx hmem
  exact h part (List.mem_of_mem_drop (List.mem_of_mem_dropLast hin)) (List.isEmpty_iff.mp hempty)

theorem skips_ends (front back : List Nat) :
    skips (ends front ++ [[]] ++ ends back) = [(ends front).length] := by
  obtain ⟨a, as, ha⟩ := List.exists_cons_of_ne_nil (ends_ne_nil front)
  obtain ⟨bs, b, hb⟩ := (List.eq_nil_or_concat' (ends back)).resolve_left (ends_ne_nil back)
  have has : ∀ part ∈ as, part ≠ [] := by
    intro part hpart
    unfold ends at ha
    split at ha
    · rw [← (List.cons.inj ha).2] at hpart
      exact absurd hpart List.not_mem_nil
    · have hmem : part ∈ front.map hexText := ha ▸ List.mem_cons_of_mem _ hpart
      obtain ⟨n, _, rfl⟩ := List.mem_map.mp hmem
      exact hexText_ne_nil n
  have hbs : ∀ part ∈ bs, part ≠ [] := by
    intro part hpart
    unfold ends at hb
    split at hb
    · have hlen := congrArg List.length hb
      rw [List.length_append, List.length_singleton, List.length_singleton] at hlen
      rw [List.length_eq_zero_iff.mp (by omega : bs.length = 0)] at hpart
      exact absurd hpart List.not_mem_nil
    · have hmem : part ∈ back.map hexText := hb ▸ List.mem_append_left _ hpart
      obtain ⟨n, _, rfl⟩ := List.mem_map.mp hmem
      exact hexText_ne_nil n
  have hinner : ((ends front ++ [[]] ++ ends back).drop 1).dropLast = as ++ [] :: bs := by
    rw [ha, hb]
    change (as ++ [[]] ++ (bs ++ [b])).dropLast = _
    rw [← List.append_assoc, List.dropLast_concat, List.append_assoc]
    rfl
  have hnone : ∀ (parts : List Str) (k : Nat), (∀ part ∈ parts, part ≠ []) →
      (parts.zipIdx k).filter (fun part => part.1.isEmpty) = [] := by
    intro parts k h
    rw [List.filter_eq_nil_iff]
    rintro ⟨part, i⟩ hmem hempty
    exact h part (List.fst_mem_of_mem_zipIdx hmem) (List.isEmpty_iff.mp hempty)
  unfold skips
  rw [hinner, List.zipIdx_append, List.filter_append, hnone as _ has, List.zipIdx_cons,
    List.filter_cons_of_pos (by rfl), hnone bs _ hbs, ha, List.length_cons]
  simp [Nat.add_comm]

theorem length_ends (hs : List Nat) : (ends hs).length = if hs = [] then 1 else hs.length := by
  unfold ends
  split
  · rfl
  · rw [List.length_map]

theorem length_ends_bounds (hs : List Nat) :
    1 ≤ (ends hs).length ∧ (ends hs).length ≤ hs.length + 1 := by
  rw [length_ends]
  cases hs <;> simp

theorem head?_ends (hs : List Nat) (rest : List Str) :
    (ends hs ++ rest).head? = some [] ↔ hs = [] := by
  cases hs with
  | nil => simp [ends]
  | cons n hs => simp [ends, hexText_ne_nil]

theorem getLast?_ends (hs : List Nat) (before : List Str) :
    (before ++ ends hs).getLast? = some [] ↔ hs = [] := by
  rw [List.getLast?_append_of_ne_nil _ (ends_ne_nil hs)]
  cases hs using List.reverseRecOn with
  | nil => simp [ends]
  | append_singleton hs n => simp [ends, hexText_ne_nil]

theorem layout_ends {front back : List Nat} (h : front.length + back.length < 8) :
    layout (ends front ++ [[]] ++ ends back) = some (front.length, back.length) := by
  have hopened := head?_ends front ([[]] ++ ends back)
  rw [← List.append_assoc] at hopened
  have hclosed := getLast?_ends back (ends front ++ [[]])
  unfold layout
  rw [skips_ends]
  simp only [hopened, hclosed, List.length_append, List.length_singleton, length_ends]
  have hfront : front = [] ↔ front.length = 0 := List.length_eq_zero_iff.symm
  have hback : back = [] ↔ back.length = 0 := List.length_eq_zero_iff.symm
  simp only [hfront, hback]
  generalize front.length = f at h ⊢
  generalize back.length = b at h ⊢
  by_cases hf : f = 0 <;> by_cases hb : b = 0 <;>
    simp only [hf, hb, if_true, if_false, true_and, false_and, false_or] <;>
    rw [if_neg (by omega)] <;>
    simp only [Option.some.injEq, Prod.mk.injEq, true_and] <;> omega

end Compression

/-- Reading joined parts of hexadecimal digits, once their layout is known. -/
theorem ipv6Int_intercalate {parts : List Str} (hne : parts ≠ [])
    (hclean : ∀ c, isHexDigit c = false → ∀ part ∈ parts, c ∉ part) (hmin : 3 ≤ parts.length)
    (hmax : parts.length ≤ 9) {hi lo : Nat} (hlayout : layout parts = some (hi, lo)) :
    ipv6Int ([':'].intercalate parts) =
      ((parts.take hi).mapM parseHextet).bind fun high =>
        ((parts.drop (parts.length - lo)).mapM parseHextet).map fun low =>
          ofDigits 65536 (high ++ List.replicate (8 - (hi + lo)) 0 ++ low) := by
  have hsplit : ([':'].intercalate parts).splitOn ':' = parts :=
    List.splitOn_intercalate _ (hclean ':' (by decide)) hne
  have hending : hexEnding parts = some parts := by
    unfold hexEnding
    split
    · rename_i last hlast
      exact if_neg (hclean '.' (by decide) last (List.mem_of_getLast? hlast))
    · rfl
  unfold ipv6Int
  rw [hsplit, if_neg (by omega), hending]
  simp only [Option.bind_eq_bind, Option.bind_some, hlayout, Option.pure_def]
  rw [if_neg (by omega)]
  simp only [Option.map_eq_bind]
  rfl

theorem not_mem_of_mem_compressed (hs : List Nat) {c : Char} (hc : isHexDigit c = false)
    {part : Str} (h : part ∈ compressHextets (hs.map hexText)) : c ∉ part := by
  rcases compressHextets_cases hs with hall | ⟨front, zeros, back, -, -, hends⟩
  · rw [hall] at h
    obtain ⟨n, _, rfl⟩ := List.mem_map.mp h
    exact not_mem_hexText hc n
  · rw [hends] at h
    simp only [List.mem_append, List.mem_singleton] at h
    rcases h with (h | rfl) | h
    · exact not_mem_of_mem_ends hc h
    · exact List.not_mem_nil
    · exact not_mem_of_mem_ends hc h

/-- Every part of a text that stands for hextets is read, whatever run of zeros it leaves out. -/
theorem ipv6Int_compressed {hs : List Nat} (hlen : hs.length = 8) (hlt : ∀ n ∈ hs, n < 65536) :
    ipv6Int ([':'].intercalate (compressHextets (hs.map hexText))) = some (ofDigits 65536 hs) := by
  rcases compressHextets_cases hs with h | ⟨front, zeros, back, hhs, hzeros, h⟩
  · have hne : hs.map hexText ≠ [] := by
      rw [← List.length_pos_iff, List.length_map, hlen]
      omega
    have hall : ∀ part ∈ hs.map hexText, part ≠ [] := by
      intro part hpart
      obtain ⟨n, _, rfl⟩ := List.mem_map.mp hpart
      exact hexText_ne_nil n
    have hlayout : layout (hs.map hexText) = some (8, 0) := by
      have hhead : ¬ (hs.map hexText).head? = some [] := fun e =>
        hall [] (List.mem_of_head? e) rfl
      have hlast : ¬ (hs.map hexText).getLast? = some [] := fun e =>
        hall [] (List.mem_of_getLast? e) rfl
      unfold layout
      rw [skips_nonempty hall]
      exact if_pos ⟨by rw [List.length_map, hlen], hhead, hlast⟩
    have hclean : ∀ c, isHexDigit c = false → ∀ part ∈ hs.map hexText, c ∉ part :=
      fun c hc part hpart => not_mem_of_mem_compressed hs hc (h.symm ▸ hpart)
    rw [h, ipv6Int_intercalate hne hclean (by simp [hlen]) (by simp [hlen]) hlayout]
    have htake : (hs.map hexText).take 8 = hs.map hexText :=
      List.take_of_length_le (by simp [hlen])
    rw [htake, mapM_parseHextet hlt, List.length_map, hlen, Nat.sub_zero,
      List.drop_of_length_le (by simp [hlen])]
    simp
  · have hshort : front.length + back.length < 8 := by
      have := congrArg List.length hhs
      simp only [List.length_append, List.length_replicate] at this
      omega
    have hclean : ∀ c, isHexDigit c = false →
        ∀ part ∈ ends front ++ [[]] ++ ends back, c ∉ part :=
      fun c hc part hpart => not_mem_of_mem_compressed hs hc (h ▸ hpart)
    have hparts : (ends front ++ [[]] ++ ends back).length =
        (ends front).length + 1 + (ends back).length := by
      rw [List.length_append, List.length_append, List.length_singleton]
    obtain ⟨hfmin, hfmax⟩ := length_ends_bounds front
    obtain ⟨hbmin, hbmax⟩ := length_ends_bounds back
    have hsum : front.length + zeros + back.length = 8 := by
      rw [← hlen, hhs, List.length_append, List.length_append, List.length_replicate]
    have htake : (ends front ++ [[]] ++ ends back).take front.length = front.map hexText := by
      unfold ends
      split
      · rename_i hnil
        rw [hnil]
        rfl
      · rw [List.append_assoc]
        exact List.take_left' (List.length_map _)
    have hdrop : (ends front ++ [[]] ++ ends back).drop
        ((ends front ++ [[]] ++ ends back).length - back.length) = back.map hexText := by
      have hback : back = [] ∨ ends back = back.map hexText := by
        unfold ends
        split
        · exact Or.inl ‹_›
        · exact Or.inr rfl
      rcases hback with hnil | hback
      · rw [hnil]
        exact List.drop_length
      · rw [hparts, hback]
        apply List.drop_left'
        rw [List.length_append, List.length_singleton, List.length_map]
        omega
    rw [h, ipv6Int_intercalate (by simp) hclean (by omega) (by omega) (layout_ends hshort), htake,
      hdrop, mapM_parseHextet fun n hn => hlt n (by simp [hhs, hn]),
      mapM_parseHextet fun n hn => hlt n (by simp [hhs, hn])]
    rw [hhs, show 8 - (front.length + back.length) = zeros by omega]
    rfl

/-- An address the module can hold. -/
def Address.Valid : Address → Prop
  | .v4 ip => ip < 2 ^ 32
  | .v6 ip scope => ip < 2 ^ 128 ∧ ∀ s, scope = some s → s ≠ [] ∧ '%' ∉ s ∧ '/' ∉ s

theorem lt_of_parseHextet {s : Str} {n : Nat} (h : parseHextet s = some n) : n < 65536 := by
  unfold parseHextet at h
  split at h
  · rename_i hs
    simp only [Bool.and_eq_true, List.all_eq_true, decide_eq_true_eq] at hs
    obtain rfl := Option.some.inj h
    calc digitsValue 16 s < 16 ^ s.length :=
          digitsValue_lt fun c hc => digitValue_lt_of_hex c (hs.1.1 c hc)
      _ ≤ 16 ^ 4 := Nat.pow_le_pow_right (by omega) hs.1.2
  · cases h

theorem mapM_parseHextet_spec {parts : List Str} {hs : List Nat}
    (h : parts.mapM parseHextet = some hs) : hs.length = parts.length ∧ ∀ n ∈ hs, n < 65536 := by
  induction parts generalizing hs with
  | nil =>
      obtain rfl := Option.some.inj h
      exact ⟨rfl, fun n hn => absurd hn List.not_mem_nil⟩
  | cons part parts ih =>
      simp only [List.mapM_cons, Option.bind_eq_bind, Option.pure_def, Option.bind_eq_some_iff,
        Option.some.injEq] at h
      obtain ⟨n, hn, rest, hrest, rfl⟩ := h
      obtain ⟨hlen, hlt⟩ := ih hrest
      refine ⟨by rw [List.length_cons, List.length_cons, hlen], ?_⟩
      rw [List.forall_mem_cons]
      exact ⟨lt_of_parseHextet hn, hlt⟩

theorem layout_le {parts : List Str} {hi lo : Nat} (h : layout parts = some (hi, lo)) :
    hi + lo ≤ 8 := by
  unfold layout at h
  extract_lets opened closed at h
  split at h
  · split at h
    · obtain ⟨rfl, rfl⟩ := Prod.mk.inj (Option.some.inj h)
      exact le_refl 8
    · cases h
  · extract_lets hi' lo' at h
    split at h
    · cases h
    · rename_i hle
      obtain ⟨rfl, rfl⟩ := Prod.mk.inj (Option.some.inj h)
      exact Nat.le_of_succ_le (Nat.not_lt.mp fun hlt => hle (Or.inr (Or.inr hlt)))
  · cases h

theorem ipv6Int_lt {s : Str} {ip : Nat} (h : ipv6Int s = some ip) : ip < 2 ^ 128 := by
  unfold ipv6Int at h
  dsimp only at h
  split at h
  · cases h
  · simp only [Option.bind_eq_bind, Option.bind_eq_some_iff] at h
    obtain ⟨parts, -, h⟩ := h
    split at h
    · cases h
    · simp only [Option.pure_def, Option.bind_eq_some_iff, Option.some.injEq] at h
      obtain ⟨⟨hi, lo⟩, hlayout, high, hhigh, low, hlow, rfl⟩ := h
      obtain ⟨hhi, hhighlt⟩ := mapM_parseHextet_spec hhigh
      obtain ⟨hlo, hlowlt⟩ := mapM_parseHextet_spec hlow
      have hle := layout_le hlayout
      rw [List.length_take] at hhi
      rw [List.length_drop] at hlo
      have hdigits : ∀ n ∈ high ++ List.replicate (8 - (hi + lo)) 0 ++ low, n < 65536 := by
        intro n hn
        simp only [List.mem_append, List.mem_replicate] at hn
        rcases hn with (hn | ⟨_, rfl⟩) | hn
        · exact hhighlt n hn
        · exact Nat.zero_lt_succ _
        · exact hlowlt n hn
      calc _ < 65536 ^ (high ++ List.replicate (8 - (hi + lo)) 0 ++ low).length :=
            ofDigits_lt hdigits
        _ ≤ 65536 ^ 8 := Nat.pow_le_pow_right (by omega) (by
            simp only [List.length_append, List.length_replicate]
            omega)

theorem colon_of_ipv6Int {s : Str} {ip : Nat} (h : ipv6Int s = some ip) : ':' ∈ s := by
  by_contra hcolon
  unfold ipv6Int at h
  rw [List.splitOn_eq_singleton hcolon, if_pos (by rw [List.length_singleton]; omega)] at h
  cases h

theorem ipv4Int_lt {s : Str} {ip : Nat} (h : ipv4Int s = some ip) : ip < 2 ^ 32 := by
  obtain ⟨octets, hquad, rfl⟩ := Option.map_eq_some_iff.mp h
  obtain ⟨hlen, hlt, -⟩ := readQuad_eq_some hquad
  calc ofDigits 256 octets < 256 ^ octets.length := ofDigits_lt hlt
    _ = 2 ^ 32 := by rw [hlen]; rfl

theorem splitScopeId_eq_some {s addr : Str} {scope : Option Str}
    (h : splitScopeId s = some (addr, scope)) :
    s = addr ++ scopeText scope ∧ '%' ∉ addr ∧ ∀ t, scope = some t → t ≠ [] ∧ '%' ∉ t := by
  unfold splitScopeId at h
  split at h
  · rename_i addr' tail hpart
    obtain ⟨rfl, rfl⟩ := Prod.mk.inj (Option.some.inj h)
    have hnot : '%' ∉ s := (partition_found_eq_false_iff '%' s).mp (by rw [hpart])
    have hsame := partition_fst_of_not_mem hnot
    rw [hpart] at hsame
    dsimp only at hsame
    exact ⟨by rw [scopeText, List.append_nil, hsame], hsame.symm ▸ hnot, fun t ht => nomatch ht⟩
  · rename_i addr' scope' hpart
    obtain ⟨hs, hnot⟩ := (partition_eq_found_iff '%' s _ _).mp hpart
    split at h
    · cases h
    · rename_i hscope
      obtain ⟨rfl, rfl⟩ := Prod.mk.inj (Option.some.inj h)
      refine ⟨hs, hnot, fun t ht => ?_⟩
      obtain rfl := Option.some.inj ht
      simpa using hscope

/-- What the module reads, it can hold. -/
theorem valid_of_ipAddress {s : Str} {a : Address} (h : ipAddress s = some a) : a.Valid := by
  rw [ipAddress, Option.or_eq_some_iff] at h
  rcases h with h | ⟨-, h⟩
  · unfold ipv4Address at h
    split at h
    · cases h
    · obtain ⟨ip, hip, rfl⟩ := Option.map_eq_some_iff.mp h
      exact ipv4Int_lt hip
  · unfold ipv6Address at h
    split at h
    · cases h
    · rename_i hslash
      simp only [Option.bind_eq_bind, Option.pure_def, Option.bind_eq_some_iff,
        Option.some.injEq] at h
      obtain ⟨⟨addr, scope⟩, hsplit, ip, hip, rfl⟩ := h
      obtain ⟨hs, -, hscope⟩ := splitScopeId_eq_some hsplit
      refine ⟨ipv6Int_lt hip, fun t ht => ?_⟩
      obtain ⟨hne, hpercent⟩ := hscope t ht
      subst ht
      exact ⟨hne, hpercent, fun hmem => hslash (by rw [hs]; simp [scopeText, hmem])⟩

theorem splitScopeId_join {addr : Str} {scope : Option Str} (haddr : '%' ∉ addr)
    (hscope : ∀ t, scope = some t → t ≠ [] ∧ '%' ∉ t) :
    splitScopeId (addr ++ scopeText scope) = some (addr, scope) := by
  cases scope with
  | none =>
      have hfound := (partition_found_eq_false_iff '%' addr).mpr haddr
      have hsame := partition_fst_of_not_mem haddr
      rw [scopeText, List.append_nil]
      unfold splitScopeId
      split
      · rename_i addr' _ hpart
        rw [hpart] at hsame
        rw [← hsame]
      · rename_i hpart
        rw [hpart] at hfound
        cases hfound
  | some t =>
      obtain ⟨hne, hpercent⟩ := hscope t rfl
      have hpart := (partition_eq_found_iff '%' (addr ++ '%' :: t) addr t).mpr ⟨rfl, haddr⟩
      unfold splitScopeId
      rw [scopeText, hpart]
      exact if_neg (by simp [hne, hpercent])

theorem ipv6Int_ipv6Text {ip : Nat} (h : ip < 2 ^ 128) : ipv6Int (ipv6Text ip) = some ip := by
  have hread := ipv6Int_compressed (length_digitsOf 65536 8 ip) fun n hn =>
    lt_of_mem_digitsOf (by omega) hn
  have h' : ip < 65536 ^ 8 := h
  rw [ofDigits_digitsOf, Nat.mod_eq_of_lt h'] at hread
  exact hread

theorem not_mem_ipv6Text (ip : Nat) {c : Char} (hc : isHexDigit c = false) (hcolon : c ≠ ':') :
    c ∉ ipv6Text ip := by
  intro hmem
  rcases mem_intercalate hmem with h | ⟨part, hpart, hin⟩
  · exact hcolon h
  · exact not_mem_of_mem_compressed _ hc hpart hin

/-- The text of an address is read as the address. -/
theorem ipAddress_text {a : Address} (h : a.Valid) : ipAddress a.text = some a := by
  cases a with
  | v4 ip =>
      have hlen := length_digitsOf 256 4 ip
      have hlt : ∀ o ∈ digitsOf 256 4 ip, o < 256 := fun o ho => lt_of_mem_digitsOf (by omega) ho
      have hquad := readQuad_quadText hlen hlt
      have hslash : '/' ∉ quadText (digitsOf 256 4 ip) := fun hmem =>
        absurd (quad_clean hquad '/' hmem) (by decide)
      have hip : ofDigits 256 (digitsOf 256 4 ip) = ip := by
        rw [ofDigits_digitsOf]
        exact Nat.mod_eq_of_lt h
      rw [ipAddress, Address.text, ipv4Address, if_neg hslash, ipv4Int, hquad, Option.map_some,
        Option.map_some, hip]
      rfl
  | v6 ip scope =>
      obtain ⟨hip, hscope⟩ := h
      have hread := ipv6Int_ipv6Text hip
      have hsplit := splitScopeId_join (not_mem_ipv6Text ip (by decide) (by decide)) fun t ht =>
        ⟨(hscope t ht).1, (hscope t ht).2.1⟩
      have hquad : ipv4Int (ipv6Text ip ++ scopeText scope) = none := by
        rw [ipv4Int, Option.map_eq_none_iff, Option.eq_none_iff_forall_ne_some]
        intro octets hquad
        have hcolon := List.mem_append_left (scopeText scope) (colon_of_ipv6Int hread)
        exact absurd (quad_clean hquad ':' hcolon) (by decide)
      have hslash : '/' ∉ ipv6Text ip ++ scopeText scope := by
        intro hmem
        rcases List.mem_append.mp hmem with hmem | hmem
        · exact not_mem_ipv6Text ip (by decide) (by decide) hmem
        · cases scope with
          | none => exact absurd hmem List.not_mem_nil
          | some t =>
              rcases List.mem_cons.mp hmem with hmem | hmem
              · exact absurd hmem (by decide)
              · exact (hscope t rfl).2.2 hmem
      rw [ipAddress, Address.text, ipv4Address, hquad, Option.map_none, ite_self, Option.none_or,
        ipv6Address, if_neg hslash, hsplit]
      simp only [Option.bind_eq_bind, Option.bind_some, hread, Option.pure_def]

/-- An IPv4 address has one text. -/
theorem text_of_ipv4Int {s : Str} {ip : Nat} (h : ipv4Int s = some ip) :
    (Address.v4 ip).text = s := by
  obtain ⟨octets, hquad, rfl⟩ := Option.map_eq_some_iff.mp h
  obtain ⟨hlen, hlt, hsplit⟩ := readQuad_eq_some hquad
  have hdigits := digitsOf_ofDigits hlt
  rw [hlen] at hdigits
  rw [Address.text, hdigits, quadText, ← hsplit]
  exact List.intercalate_splitOn '.'

end PfBlockerNG.PyIpaddress
