import PfBlockerNG.ControlTimers
import PfBlockerNG.PyIpaddress

/-!
The addresses the Group Policy list exempts. Configured rows are stored under the canonical text of
their address, commands under the text they came with, and a client is looked up by its own.
-/

namespace PfBlockerNG.BypassSpelling

open PfBlockerNG.ControlTimers
open PfBlockerNG.IpText
open PfBlockerNG.OrderedDict
open PfBlockerNG.PyIpaddress
open PfBlockerNG.Strings

/-- The interpreter with the `ipaddress` module. -/
def interpreter (decimal : Char → Option Nat) (modThreading : Bool) : Platform :=
  ⟨fun s => (ipAddress s).isSome, decimal, modThreading⟩

/-- `_gp_net_match`. -/
def gpNetMatch (gpNetDB : List Network) (qIp : Str) : Bool :=
  match ipAddress qIp with
  | none => false
  | some addr => gpNetDB.any fun net => net.contains addr

/-- `_gp_bypassed`, for a client's text. -/
def gpBypassed (c : Control) (gpNetDB : List Network) (qIp : Str) : Bool :=
  c.gpListActive && qIp != "Unknown".toList &&
    ((c.gpListDB.get qIp).isSome || (!gpNetDB.isEmpty && gpNetMatch gpNetDB qIp))

/-- One row of `[GP_Bypass_List]`: a full-length one is a key, a shorter one a network. -/
def loadRow (lists : Dict Str Nat × List Network) (row : Str × Str) :
    Dict Str Nat × List Network :=
  match ipNetwork row.2 with
  | none => lists
  | some net =>
      if net.prefixlen = net.networkAddress.width then
        (lists.1.set net.networkAddress.text 0, lists.2)
      else (lists.1, lists.2 ++ [net])

/-- `_load_gp_bypass_list`. -/
def loadGpBypassList (rows : List (Str × Str)) (c : Control) (gpNetDB : List Network) :
    Control × List Network :=
  let lists := rows.foldl loadRow (c.gpListDB, gpNetDB)
  ({ c with
      gpListDB := lists.1
      gpListActive := c.gpListActive || lists.1.nonempty || !lists.2.isEmpty }, lists.2)

/-- A text that `ip_address` reads as the address. -/
def Spelling (a : Address) : Type := { s : Str // ipAddress s = some a }

section Naming

variable (py : Platform) (a : Address)

/-- `removebypass t` leaves the client with the configured networks only. -/
def Ends (t : Str) (c : Control) : Prop :=
  ∀ (ctl token : Str) (rest : List Str) (starts : Bool) (gpNetDB : List Network),
    dotted token = dotted t →
    gpBypassed (applyControlCommand py (ctl :: removeBypassVerb :: token :: rest) starts c).1
      gpNetDB a.text = true →
    gpNetMatch gpNetDB a.text = true

/-- A bypass names an address: `addbypass s` exempts the client, a later `removebypass t` ends
that, and it ends the exemption of a full-length row. -/
structure NamesAddress (s t : Str) : Prop where
  added : ∀ (ctl token : Str) (rest : List Str) (starts : Bool) (c : Control)
    (gpNetDB : List Network), dotted token = dotted s →
    let r := applyControlCommand py (ctl :: addBypassVerb :: token :: rest) starts c
    (rest = [] → r.2.1 = true) ∧ (r.2.1 = true → gpBypassed r.1 gpNetDB a.text = true)
  removed : ∀ (ctl token : Str) (rest : List Str) (starts : Bool) (c c' : Control)
    (events : List Event), dotted token = dotted s →
    Transitions.run (step py)
      (applyControlCommand py (ctl :: addBypassVerb :: token :: rest) starts c).1 events = some c' →
    Ends py a t c'
  row : ∀ (rows : List (Str × Str)) (row : Str × Str) (c c' : Control) (gpNetDB : List Network)
    (events : List Event), row ∈ rows → ipNetwork row.2 = some ⟨a, a.width⟩ →
    let r := loadGpBypassList rows c gpNetDB
    gpBypassed r.1 r.2 a.text = true ∧
      (Transitions.run (step py) r.1 events = some c' → Ends py a t c')

end Naming

section Commands

theorem text_ne_unknown {a : Address} (h : a.Valid) : a.text ≠ "Unknown".toList := by
  intro htext
  have hread := ipAddress_text h
  have hunknown : ipAddress "Unknown".toList = none := by decide +kernel
  rw [htext, hunknown] at hread
  cases hread

theorem text_ne_nil {a : Address} (h : a.Valid) : a.text ≠ [] := by
  intro htext
  have hread := ipAddress_text h
  have hempty : ipAddress [] = none := by decide +kernel
  rw [htext, hempty] at hread
  cases hread

/-- A client is exempt by its own key or by a network. -/
theorem gpBypassed_iff {a : Address} (h : a.Valid) (c : Control) (gpNetDB : List Network) :
    gpBypassed c gpNetDB a.text = true ↔ c.gpListActive = true ∧
      ((c.gpListDB.get a.text).isSome = true ∨ gpNetMatch gpNetDB a.text = true) := by
  have hunknown : (a.text != "Unknown".toList) = true := bne_iff_ne.mpr (text_ne_unknown h)
  have hnets : (!gpNetDB.isEmpty && gpNetMatch gpNetDB a.text) = gpNetMatch gpNetDB a.text := by
    cases gpNetDB with
    | nil => rw [gpNetMatch, ipAddress_text h]; rfl
    | cons net nets => rfl
  rw [gpBypassed, hnets, hunknown, Bool.and_true, Bool.and_eq_true, Bool.or_eq_true]

theorem gpListActive_addBypass (py : Platform) (tokens : List Str) (starts : Bool) (ip : Str)
    (c : Control) : (addBypass py tokens starts ip c).1.gpListActive = c.gpListActive := by
  unfold addBypass
  split
  · dsimp only
    split
    · rfl
    · split
      · rfl
      · split
        · rfl
        · split <;> rfl
  · rfl

theorem gpListActive_removeBypass (ip : Str) (c : Control) :
    (removeBypass ip c).1.gpListActive = c.gpListActive := by
  unfold removeBypass
  split <;> rfl

theorem applyControlCommand_add {py : Platform} {ctl token : Str} (rest : List Str)
    (starts : Bool) (c : Control) (hne : token ≠ []) (hip : py.ipAddress (dotted token) = true) :
    applyControlCommand py (ctl :: addBypassVerb :: token :: rest) starts c =
      addBypass py (ctl :: addBypassVerb :: token :: rest) starts (dotted token)
        { c with gpListActive := true } := by
  have h₁ : addBypassVerb ≠ disableVerb := by decide
  have h₂ : addBypassVerb ≠ enableVerb := by decide
  simp [applyControlCommand, h₁, h₂, hne, hip]

theorem applyControlCommand_remove {py : Platform} {ctl token : Str} (rest : List Str)
    (starts : Bool) (c : Control) (hne : token ≠ []) (hip : py.ipAddress (dotted token) = true) :
    applyControlCommand py (ctl :: removeBypassVerb :: token :: rest) starts c =
      removeBypass (dotted token) { c with gpListActive := true } := by
  have h₁ : removeBypassVerb ≠ disableVerb := by decide
  have h₂ : removeBypassVerb ≠ enableVerb := by decide
  have h₃ : removeBypassVerb ≠ addBypassVerb := by decide
  simp [applyControlCommand, h₁, h₂, h₃, hne, hip]

theorem ne_nil_of_dotted {token : Str} (h : dotted token ≠ []) : token ≠ [] := by
  rintro rfl
  exact h rfl

end Commands

section Naming

variable {decimal : Char → Option Nat} {modThreading : Bool} {a : Address} {s t : Str}

theorem accepted_of_dotted (decimal : Char → Option Nat) (modThreading : Bool) (h : a.Valid)
    {token : Str} (htoken : dotted token = a.text) :
    token ≠ [] ∧ (interpreter decimal modThreading).ipAddress (dotted token) = true := by
  refine ⟨ne_nil_of_dotted (htoken ▸ text_ne_nil h), ?_⟩
  change (ipAddress (dotted token)).isSome = true
  rw [htoken, ipAddress_text h]
  rfl

/-- An `addbypass` of the canonical text exempts the client. -/
theorem addBypass_exempts (h : a.Valid) (hs : dotted s = a.text) {ctl token : Str}
    (rest : List Str) (starts : Bool) (c : Control) (gpNetDB : List Network)
    (htoken : dotted token = dotted s) :
    let r := applyControlCommand (interpreter decimal modThreading)
      (ctl :: addBypassVerb :: token :: rest) starts c
    (rest = [] → r.2.1 = true) ∧ (r.2.1 = true → gpBypassed r.1 gpNetDB a.text = true) := by
  have htext := htoken.trans hs
  obtain ⟨hne, hip⟩ := accepted_of_dotted decimal modThreading h htext
  have hspec := (applyControlCommand_spec (interpreter decimal modThreading)
    (ctl :: addBypassVerb :: token :: rest) starts c).pending (.unbypass a.text)
  rw [applyControlCommand_add rest starts c hne hip, htext] at hspec ⊢
  refine ⟨?_, fun happlied => ?_⟩
  · rintro rfl
    rfl
  · rw [happlied, effectOf_bypass (Or.inl rfl), htext, if_pos rfl] at hspec
    rw [gpBypassed_iff h, gpListActive_addBypass]
    exact ⟨rfl, Or.inl hspec⟩

/-- A `removebypass` of the canonical text ends every exemption that is not a network's. -/
theorem ends_of_text (h : a.Valid) (ht : dotted t = a.text) (c : Control) :
    Ends (interpreter decimal modThreading) a t c := by
  intro ctl token rest starts gpNetDB htoken hbypassed
  have htext := htoken.trans ht
  obtain ⟨hne, hip⟩ := accepted_of_dotted decimal modThreading h htext
  have hspec := (applyControlCommand_spec (interpreter decimal modThreading)
    (ctl :: removeBypassVerb :: token :: rest) starts c).pending (.unbypass a.text)
  rw [applyControlCommand_remove rest starts c hne hip, htext] at hspec hbypassed
  rw [removeBypass_applied, effectOf_bypass (Or.inr rfl), htext, if_pos rfl] at hspec
  rw [gpBypassed_iff h] at hbypassed
  rcases hbypassed.2 with hkey | hnet
  · rw [Option.getD_some] at hspec
    exact absurd (hspec.symm.trans hkey) (by decide)
  · exact hnet

end Naming

section Rows

theorem isSome_get_loadRow {lists : Dict Str Nat × List Network} {k : Str}
    (h : (lists.1.get k).isSome = true) (row : Str × Str) :
    ((loadRow lists row).1.get k).isSome = true := by
  unfold loadRow
  split
  · exact h
  · split
    · rw [Dict.get_set]
      split
      · rfl
      · exact h
    · exact h

/-- A full-length row leaves its address among the keys, whatever rows stand around it. -/
theorem isSome_get_foldl {a : Address} {row : Str × Str}
    (hrow : ipNetwork row.2 = some ⟨a, a.width⟩) {rows : List (Str × Str)} (hmem : row ∈ rows)
    (lists : Dict Str Nat × List Network) :
    ((rows.foldl loadRow lists).1.get a.text).isSome = true := by
  have hkept : ∀ (rows : List (Str × Str)) (lists : Dict Str Nat × List Network),
      (lists.1.get a.text).isSome = true →
      ((rows.foldl loadRow lists).1.get a.text).isSome = true := by
    intro rows
    induction rows with
    | nil => exact fun _ h => h
    | cons r rows ih => exact fun lists h => ih _ (isSome_get_loadRow h r)
  obtain ⟨before, after, rfl⟩ := List.append_of_mem hmem
  rw [List.foldl_append, List.foldl_cons]
  apply hkept
  rw [loadRow, hrow]
  dsimp only
  rw [if_pos rfl, Dict.get_set_self]
  rfl

theorem ipNetwork_of_ipAddress {s : Str} {a : Address} (h : ipAddress s = some a) :
    ipNetwork s = some ⟨a, a.width⟩ := by
  have hslash : '/' ∉ s := by
    intro hmem
    rw [ipAddress, ipv4Address, ipv6Address, if_pos hmem, if_pos hmem] at h
    cases h
  have hsplit := List.splitOn_eq_singleton hslash
  rw [ipNetwork, networkOf, networkOf, hsplit]
  dsimp only
  rw [ipAddress] at h
  rw [← Option.map_or, h, Option.map_some]

/-- A loaded full-length row exempts its client. -/
theorem row_exempts {a : Address} (h : a.Valid) {row : Str × Str}
    (hrow : ipNetwork row.2 = some ⟨a, a.width⟩) {rows : List (Str × Str)} (hmem : row ∈ rows)
    (c : Control) (gpNetDB : List Network) :
    gpBypassed (loadGpBypassList rows c gpNetDB).1 (loadGpBypassList rows c gpNetDB).2 a.text =
      true := by
  have hkey := isSome_get_foldl hrow hmem (c.gpListDB, gpNetDB)
  obtain ⟨v, hv⟩ := Option.isSome_iff_exists.mp hkey
  have hnonempty := (Dict.nonempty_eq_true_iff _).mpr ⟨_, v, hv⟩
  rw [gpBypassed_iff h]
  refine ⟨?_, Or.inl hkey⟩
  rw [loadGpBypassList, hnonempty, Bool.or_true, Bool.true_or]

end Rows

section Spelling

variable {decimal : Char → Option Nat} {modThreading : Bool} {a : Address} {s t : Str}

theorem NamesAddress.of_text (h : a.Valid) (hs : dotted s = a.text) (ht : dotted t = a.text) :
    NamesAddress (interpreter decimal modThreading) a s t where
  added _ _ rest starts c gpNetDB htoken := addBypass_exempts h hs rest starts c gpNetDB htoken
  removed _ _ _ _ _ c' _ _ _ := ends_of_text h ht c'
  row _ _ c c' gpNetDB _ hmem hrow :=
    ⟨row_exempts h hrow hmem c gpNetDB, fun _ => ends_of_text h ht c'⟩

theorem text_of_added (h : a.Valid)
    (hnames : NamesAddress (interpreter decimal modThreading) a s t) : dotted s = a.text := by
  obtain ⟨happlied, hexempt⟩ := hnames.added [] s [] true idle [] rfl
  have hbypassed := hexempt (happlied rfl)
  have hspec := (applyControlCommand_spec (interpreter decimal modThreading)
    [[], addBypassVerb, s] true idle).pending (.unbypass a.text)
  rw [happlied rfl, effectOf_bypass (Or.inl rfl)] at hspec
  rw [gpBypassed_iff h] at hbypassed
  have hkey : Action.pending (applyControlCommand (interpreter decimal modThreading)
      [[], addBypassVerb, s] true idle).1 (.unbypass a.text) = true := by
    rcases hbypassed.2 with hkey | hnet
    · exact hkey
    · rw [gpNetMatch, ipAddress_text h] at hnet
      cases hnet
  rw [hkey] at hspec
  by_contra hne
  rw [if_neg fun e => hne (Action.unbypass.inj e).symm] at hspec
  cases hspec

theorem gpListActive_remove {py : Platform} (ctl : Str) (starts : Bool) {c : Control}
    (h : c.gpListActive = true) :
    (applyControlCommand py [ctl, removeBypassVerb, t] starts c).1.gpListActive = true := by
  have h₁ : removeBypassVerb ≠ disableVerb := by decide
  have h₂ : removeBypassVerb ≠ enableVerb := by decide
  have h₃ : removeBypassVerb ≠ addBypassVerb := by decide
  simp only [applyControlCommand, h₁, h₂, h₃, if_false, or_true, if_true]
  split
  · exact h
  · split
    · exact gpListActive_removeBypass _ _
    · exact h

theorem text_of_row (h : a.Valid)
    (hnames : NamesAddress (interpreter decimal modThreading) a s t) : dotted t = a.text := by
  have hrow := ipNetwork_of_ipAddress (ipAddress_text h)
  have hmem := List.mem_singleton_self (([], a.text) : Str × Str)
  obtain ⟨hloaded, hends⟩ := hnames.row [([], a.text)] ([], a.text) idle _ [] [] hmem hrow
  rw [gpBypassed_iff h] at hloaded
  have hkey : Action.pending (loadGpBypassList [([], a.text)] idle []).1 (.unbypass a.text) =
      true := isSome_get_foldl hrow hmem _
  by_contra hne
  have hspec := (applyControlCommand_spec (interpreter decimal modThreading)
    [[], removeBypassVerb, t] true (loadGpBypassList [([], a.text)] idle []).1).pending
      (.unbypass a.text)
  have hother : effectOf ⟨[[], removeBypassVerb, t], (applyControlCommand
      (interpreter decimal modThreading) [[], removeBypassVerb, t] true
      (loadGpBypassList [([], a.text)] idle []).1).2.1⟩ (.unbypass a.text) = none := by
    simp [effectOf, bypassOf, hne]
  rw [hother, Option.getD_none, hkey] at hspec
  have hbypassed := (gpBypassed_iff h _ []).mpr
    ⟨gpListActive_remove [] true hloaded.1, Or.inl hspec⟩
  have hnet := hends rfl [] t [] true [] rfl hbypassed
  rw [gpNetMatch, ipAddress_text h] at hnet
  cases hnet

end Spelling

/-- A bypass names an address exactly when both commands spell it, dashes read as dots, the way
the module writes it. -/
theorem namesAddress_iff (decimal : Char → Option Nat) (modThreading : Bool) (a : Address)
    (s t : Spelling a) :
    NamesAddress (interpreter decimal modThreading) a s.1 t.1 ↔
      dotted s.1 = a.text ∧ dotted t.1 = a.text := by
  have h := valid_of_ipAddress s.2
  constructor
  · intro hnames
    exact ⟨text_of_added h hnames, text_of_row h hnames⟩
  · rintro ⟨hs, ht⟩
    exact .of_text h hs ht

/-- Every spelling of an IPv4 address is that one. -/
theorem dotted_v4 {ip : Nat} (s : Spelling (.v4 ip)) : dotted s.1 = (Address.v4 ip).text := by
  have hread := s.2
  rw [ipAddress, Option.or_eq_some_iff] at hread
  rcases hread with hread | ⟨-, hread⟩
  · unfold ipv4Address at hread
    split at hread
    · cases hread
    · obtain ⟨ip', hip, heq⟩ := Option.map_eq_some_iff.mp hread
      obtain rfl := Address.v4.inj heq
      obtain ⟨octets, hquad, -⟩ := Option.map_eq_some_iff.mp hip
      have hdotted : dotted s.1 = s.1 := by
        apply (List.map_congr_left fun c hc => ?_).trans (List.map_id s.1)
        have hclean := quad_clean hquad c hc
        exact if_neg fun e => absurd (e ▸ hclean) (by decide)
      rw [hdotted, text_of_ipv4Int hip]
  · unfold ipv6Address at hread
    split at hread
    · cases hread
    · simp only [Option.bind_eq_bind, Option.pure_def, Option.bind_eq_some_iff,
        Option.some.injEq, reduceCtorEq, and_false, exists_false] at hread

/-- Every two spellings of an IPv4 client name it. -/
theorem namesAddress_v4 (decimal : Char → Option Nat) (modThreading : Bool) {ip : Nat}
    (s t : Spelling (.v4 ip)) :
    NamesAddress (interpreter decimal modThreading) (.v4 ip) s.1 t.1 :=
  .of_text (valid_of_ipAddress s.2) (dotted_v4 s) (dotted_v4 t)

/-- `2001:db8::1`. -/
def host : Address := .v6 0x20010db8000000000000000000000001 none

def upperCase : Str := "2001:DB8::1".toList

/-- An address in capital letters is stored as it is typed, and its client stays blocked. -/
theorem upperCase_not_named :
    ipAddress upperCase = some host ∧
      ¬ NamesAddress (interpreter asciiPlatform.decimal true) host upperCase upperCase := by
  refine ⟨by decide +kernel, fun hnames => ?_⟩
  obtain ⟨happlied, hexempt⟩ := hnames.added "python_control".toList upperCase [] true idle [] rfl
  exact absurd (hexempt (happlied rfl)) (by decide +kernel)

end PfBlockerNG.BypassSpelling
