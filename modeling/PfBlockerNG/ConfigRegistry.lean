import Mathlib.Data.List.Nodup
import PfBlockerNG.Strings

/-!
The registry of configuration fields: the six adapter pairs that carry a stored
value to its runtime form and back, and the fields with their sections,
defaults and privileges.
-/

namespace PfBlockerNG.ConfigRegistry

open Strings

/-! ### Enumerations kept in the configuration -/

inductive Toggle
  | on | off
  deriving DecidableEq, Repr

inductive IdnMode
  | all | confusable | off
  deriving DecidableEq, Repr

inductive FeedSuffixPolicy
  | ignore | apex | honor
  deriving DecidableEq, Repr

inductive AliasDeltaMode
  | auto | delta | replace
  deriving DecidableEq, Repr

inductive Top1mSource
  | tranco | cisco | openPageRank | majestic | cloudflare
  deriving DecidableEq, Repr

/-- An instance of one of the stored enumerations. -/
inductive StoredEnum
  | toggle (t : Toggle)
  | idnMode (m : IdnMode)
  | feedSuffixPolicy (p : FeedSuffixPolicy)
  | aliasDeltaMode (m : AliasDeltaMode)
  | top1mSource (s : Top1mSource)
  deriving DecidableEq, Repr

/-- A value a configuration array or a page's data can hold. A float carries the text it
prints as; the keys of an array stand in their order. -/
inductive Value
  | null
  | bool (b : Bool)
  | int (n : Int)
  | float (text : Str)
  | str (s : Str)
  | enum (e : StoredEnum)
  | arr (items : List (String × Value))

namespace Value

def isScalar : Value → Bool
  | bool _ | int _ | float _ | str _ => true
  | null | enum _ | arr _ => false

/-- The string cast. -/
def toStr : Value → Str
  | null | bool false => []
  | bool true => ['1']
  | int (.ofNat n) => Nat.toDigits 10 n
  | int (.negSucc n) => '-' :: Nat.toDigits 10 (n + 1)
  | float text => text
  | str s => s
  | enum _ => []
  | arr _ => "Array".toList

/-- PHP's `empty`. -/
def isEmpty : Value → Bool
  | null | bool false | int 0 => true
  | str s => s = [] || s = ['0']
  | float text => text = ['0'] || text = "-0".toList
  | arr items => items.isEmpty
  | _ => false

end Value

def strtolower (s : Str) : Str := s.map Char.toLower

/-- What an enumeration adds to the shared adapter. -/
structure EnumAdapter (ε : Type) where
  cases : List ε
  value : ε → Str
  default : ε
  fromLegacy : Str → ε
  ofEnum : StoredEnum → Option ε

namespace EnumAdapter

variable {ε : Type} (E : EnumAdapter ε)

def tryFrom (raw : Str) : Option ε := E.cases.find? fun e => E.value e = raw

/-- An instance stays as it is, another non-scalar falls to the default, a scalar is parsed. -/
def fromStored : Value → ε
  | .enum e => (E.ofEnum e).getD E.default
  | .arr _ => E.default
  | v => (E.tryFrom v.toStr).getD (E.fromLegacy v.toStr)

def toStored (e : ε) : Str := if E.value e = "off".toList then [] else E.value e

/-- The write half of a pair takes the enumeration or a stored string. -/
def write : ε ⊕ Str → Str
  | .inl e => E.toStored e
  | .inr s => E.toStored (E.fromStored (.str s))

end EnumAdapter

def pfbToggle : EnumAdapter Toggle where
  cases := [.on, .off]
  value
    | .on => "on".toList
    | .off => "off".toList
  default := .off
  fromLegacy raw :=
    if strtolower raw = "on".toList then .on
    else if strtolower raw = "off".toList then .off
    else .off
  ofEnum
    | .toggle t => some t
    | _ => none

def pfbIdnMode : EnumAdapter IdnMode where
  cases := [.all, .confusable, .off]
  value
    | .all => "on".toList
    | .confusable => "confusable".toList
    | .off => "off".toList
  default := .off
  fromLegacy _ := .off
  ofEnum
    | .idnMode m => some m
    | _ => none

def pfbFeedSuffixPolicy : EnumAdapter FeedSuffixPolicy where
  cases := [.ignore, .apex, .honor]
  value
    | .ignore => "ignore".toList
    | .apex => "apex".toList
    | .honor => "honor".toList
  default := .honor
  fromLegacy _ := .honor
  ofEnum
    | .feedSuffixPolicy p => some p
    | _ => none

def pfbAliasDeltaMode : EnumAdapter AliasDeltaMode where
  cases := [.auto, .delta, .replace]
  value
    | .auto => "auto".toList
    | .delta => "delta".toList
    | .replace => "replace".toList
  default := .auto
  fromLegacy _ := .auto
  ofEnum
    | .aliasDeltaMode m => some m
    | _ => none

def pfbTop1mSource : EnumAdapter Top1mSource where
  cases := [.tranco, .cisco, .openPageRank, .majestic, .cloudflare]
  value
    | .tranco => "tranco".toList
    | .cisco => "cisco".toList
    | .openPageRank => "openpagerank".toList
    | .majestic => "majestic".toList
    | .cloudflare => "cloudflare".toList
  default := .tranco
  fromLegacy raw := if raw = "domcop".toList then .openPageRank else .tranco
  ofEnum
    | .top1mSource s => some s
    | _ => none

/-- Stored tokens read back as the case they were written for, and none is the text `0`, which
some fields take for not configured. -/
class Canonical {ε : Type} (E : EnumAdapter ε) : Prop where
  fromStored_toStored : ∀ e, E.fromStored (.str (E.toStored e)) = e
  toStored_ne_zero : ∀ e, E.toStored e ≠ ['0']

instance : Canonical pfbToggle :=
  ⟨fun e => by cases e <;> rfl, fun e => by cases e <;> decide⟩

instance : Canonical pfbIdnMode :=
  ⟨fun e => by cases e <;> rfl, fun e => by cases e <;> decide⟩

instance : Canonical pfbFeedSuffixPolicy :=
  ⟨fun e => by cases e <;> rfl, fun e => by cases e <;> decide⟩

instance : Canonical pfbAliasDeltaMode :=
  ⟨fun e => by cases e <;> rfl, fun e => by cases e <;> decide⟩

instance : Canonical pfbTop1mSource :=
  ⟨fun e => by cases e <;> rfl, fun e => by cases e <;> decide⟩


/-! ### The re-entry timeout -/

def pfbReentryTimeoutDefault : Nat := 1800
def pfbReentryTimeoutMin : Nat := 60
def pfbReentryTimeoutMax : Nat := 7200

def isDigits (s : Str) : Bool := !s.isEmpty && s.all Char.isDigit

/-- The integer cast of a run of digits, which saturates at the largest integer. -/
def intOfDigits (s : Str) : Nat := min (Nat.ofDigitChars 10 s 0) (2 ^ 63 - 1)

/-- The seconds a stored or submitted timeout stands for. -/
def pfbReentryTimeout (raw : Value) : Nat :=
  let secs : Option Int := match raw with
    | .int n => some n
    | .str s => if isDigits s then some (intOfDigits s) else none
    | _ => none
  match secs with
  | some secs =>
      if (pfbReentryTimeoutMin : Int) ≤ secs ∧ secs ≤ pfbReentryTimeoutMax then secs.toNat
      else pfbReentryTimeoutDefault
  | none => pfbReentryTimeoutDefault

def pfbCfgReentryTimeoutAdapter (stored : Value) : Str :=
  Nat.toDigits 10 (pfbReentryTimeout stored)

theorem pfbReentryTimeout_bounds (raw : Value) :
    pfbReentryTimeoutMin ≤ pfbReentryTimeout raw ∧
      pfbReentryTimeout raw ≤ pfbReentryTimeoutMax := by
  simp only [pfbReentryTimeout]
  split
  · split
    · rename_i h
      constructor <;> omega
    · decide
  · decide

theorem pfbReentryTimeout_toDigits {secs : Nat} (hmin : pfbReentryTimeoutMin ≤ secs)
    (hmax : secs ≤ pfbReentryTimeoutMax) :
    pfbReentryTimeout (.str (Nat.toDigits 10 secs)) = secs := by
  have hdigits : isDigits (Nat.toDigits 10 secs) = true := by
    simp only [isDigits, Bool.and_eq_true, Bool.not_eq_true', List.isEmpty_eq_false_iff,
      List.all_eq_true]
    exact ⟨Nat.toDigits_ne_nil,
      fun c hc => Nat.isDigit_of_mem_toDigits (by decide) (by decide) hc⟩
  have hint : intOfDigits (Nat.toDigits 10 secs) = secs := by
    rw [intOfDigits, Nat.ofDigitChars_ten_toDigits]
    unfold pfbReentryTimeoutMax at hmax
    omega
  simp only [pfbReentryTimeout, hdigits, if_true, hint]
  rw [if_pos ⟨by exact_mod_cast hmin, by exact_mod_cast hmax⟩, Int.toNat_natCast]

theorem pfbCfgReentryTimeoutAdapter_self (v : Value) :
    pfbCfgReentryTimeoutAdapter (.str (pfbCfgReentryTimeoutAdapter v)) =
      pfbCfgReentryTimeoutAdapter v := by
  obtain ⟨hmin, hmax⟩ := pfbReentryTimeout_bounds v
  conv_lhs => unfold pfbCfgReentryTimeoutAdapter
  rw [show pfbCfgReentryTimeoutAdapter v = Nat.toDigits 10 (pfbReentryTimeout v) from rfl,
    pfbReentryTimeout_toDigits hmin hmax]

/-! ### Adapter pairs -/

inductive Adapter
  | toggle | idnMode | feedSuffixPolicy | aliasDeltaMode | top1mSource | reentryTimeout
  deriving DecidableEq, Repr

/-- The write adapter after the read adapter of a pair. -/
def Adapter.store : Adapter → Value → Str
  | toggle, v => pfbToggle.write (.inl (pfbToggle.fromStored v))
  | idnMode, v => pfbIdnMode.write (.inl (pfbIdnMode.fromStored v))
  | feedSuffixPolicy, v => pfbFeedSuffixPolicy.write (.inl (pfbFeedSuffixPolicy.fromStored v))
  | aliasDeltaMode, v => pfbAliasDeltaMode.write (.inl (pfbAliasDeltaMode.fromStored v))
  | top1mSource, v => pfbTop1mSource.write (.inl (pfbTop1mSource.fromStored v))
  | reentryTimeout, v => pfbCfgReentryTimeoutAdapter (.str (pfbCfgReentryTimeoutAdapter v))

theorem EnumAdapter.write_self {ε : Type} (E : EnumAdapter ε) [Canonical E] (v : Value) :
    E.write (.inl (E.fromStored (.str (E.write (.inl (E.fromStored v)))))) =
      E.write (.inl (E.fromStored v)) :=
  congrArg (fun e => E.write (.inl e)) (Canonical.fromStored_toStored (E.fromStored v))

/-- A stored form is its own stored form. -/
theorem Adapter.store_self (a : Adapter) (v : Value) : a.store (.str (a.store v)) = a.store v := by
  cases a with
  | toggle => exact pfbToggle.write_self v
  | idnMode => exact pfbIdnMode.write_self v
  | feedSuffixPolicy => exact pfbFeedSuffixPolicy.write_self v
  | aliasDeltaMode => exact pfbAliasDeltaMode.write_self v
  | top1mSource => exact pfbTop1mSource.write_self v
  | reentryTimeout => simp only [Adapter.store, pfbCfgReentryTimeoutAdapter_self]

theorem Adapter.store_ne_zero (a : Adapter) (v : Value) : a.store v ≠ ['0'] := by
  cases a with
  | toggle => exact Canonical.toStored_ne_zero (E := pfbToggle) _
  | idnMode => exact Canonical.toStored_ne_zero (E := pfbIdnMode) _
  | feedSuffixPolicy => exact Canonical.toStored_ne_zero (E := pfbFeedSuffixPolicy) _
  | aliasDeltaMode => exact Canonical.toStored_ne_zero (E := pfbAliasDeltaMode) _
  | top1mSource => exact Canonical.toStored_ne_zero (E := pfbTop1mSource) _
  | reentryTimeout =>
      intro h
      obtain ⟨hmin, -⟩ := pfbReentryTimeout_bounds (.str (pfbCfgReentryTimeoutAdapter v))
      have hzero := congrArg (fun s => Nat.ofDigitChars 10 s 0) h
      simp only [Adapter.store, pfbCfgReentryTimeoutAdapter, Nat.ofDigitChars_ten_toDigits] at hzero
      unfold pfbReentryTimeoutMin at hmin
      have : Nat.ofDigitChars 10 ['0'] 0 = 0 := rfl
      simp only [pfbCfgReentryTimeoutAdapter] at hmin
      omega

/-! ### Fields -/

inductive SectionAlias
  | gen | dnsbl | ss | ip | rep | global | sync | dns | dnsShared
  deriving DecidableEq, Repr

/-- The configuration path of a section, segment by segment. -/
def pfbSections : SectionAlias → List String
  | .gen => ["installedpackages", "pfblockerng", "config", "0"]
  | .dnsbl =>
      ["installedpackages", "pfblockerngdnsblsettings", "config", "0"]
  | .ss => ["installedpackages", "pfblockerngsafesearch"]
  | .ip =>
      ["installedpackages", "pfblockerngipsettings", "config", "0"]
  | .rep =>
      ["installedpackages", "pfblockerngreputation", "config", "0"]
  | .global => ["installedpackages", "pfblockerngglobal"]
  | .sync => ["installedpackages", "pfblockerngsync", "config", "0"]
  | .dns => ["installedpackages", "pfblockerngdns", "config", "0"]
  | .dnsShared =>
      ["installedpackages", "pfblockerngdnssettings", "config", "0"]

theorem pfbSections_injective {a b : SectionAlias} (h : pfbSections a = pfbSections b) : a = b := by
  cases a <;> cases b <;> first | rfl | exact absurd h (by decide)

structure ConfigField where
  sectionAlias : SectionAlias
  bare : String
  default : Str
  adapter : Option Adapter := none
  zeroReadsDefault : Bool := false
  writePriv : Option String := none
  deriving DecidableEq

namespace ConfigField

def plain (sectionAlias : SectionAlias) (bare default : String) : ConfigField :=
  { sectionAlias, bare, default := default.toList }

def adapted (sectionAlias : SectionAlias) (bare default : String) (adapter : Adapter) :
    ConfigField :=
  { sectionAlias, bare, default := default.toList, adapter := some adapter }

def zeroField (sectionAlias : SectionAlias) (bare default : String) : ConfigField :=
  { sectionAlias, bare, default := default.toList, zeroReadsDefault := true }

end ConfigField

/-- A registry names each field once. -/
structure Registry where
  fields : List ConfigField
  nodup : (fields.map fun f => (f.sectionAlias, f.bare)).Nodup

/-- Two fields of one section under one name are one field. -/
theorem Registry.eq_of_section {reg : Registry} {f g : ConfigField} (hf : f ∈ reg.fields)
    (hg : g ∈ reg.fields) (hsection : pfbSections f.sectionAlias = pfbSections g.sectionAlias)
    (hbare : f.bare = g.bare) : f = g :=
  List.inj_on_of_nodup_map reg.nodup hf hg
    (Prod.ext (pfbSections_injective hsection) hbare)

open ConfigField

/-- The log types that have an age cap. -/
def logTypes : List String :=
  [ "log", "errlog", "extraslog", "ip_blocklog", "ip_permitlog", "ip_matchlog", "ip_parse_err"
  , "dnslog", "dnsbl_parse_err", "dnsreplylog", "unilog" ]

def pfbDnsPolicyFields : List String :=
  [ "pfb_dns_listen_vip", "pfb_dns_listen_vip_only", "pfb_dns_listen_vip4"
  , "pfb_dns_listen_vip6", "pfb_dns_listen_auto4", "pfb_dns_listen_auto6" ]

/-- The fields declared before the log caps. -/
def generalFields : List ConfigField :=
  [ plain .gen "settings_family" "3.3"
  , adapted .gen "enable_cb" "" .toggle
  , adapted .gen "pfb_keep" "on" .toggle
  , adapted .gen "pfb_scheduled_feed_updates" "on" .toggle
  , plain .gen "pfb_schedule_weekday" "7"
  , plain .gen "pfb_schedule_hour" "0"
  , plain .gen "pfb_schedule_minute" "0"
  , plain .gen "skipfeed" "3"
  , plain .gen "pfb_agg_types" ""
  , plain .gen "log_max_log" "20000"
  , plain .gen "log_max_errlog" "20000"
  , plain .gen "log_max_extraslog" "20000"
  , plain .gen "log_max_ip_blocklog" "20000"
  , plain .gen "log_max_ip_permitlog" "20000"
  , plain .gen "log_max_ip_matchlog" "20000"
  , plain .gen "log_max_ip_parse_err" "20000"
  , plain .gen "log_max_dnslog" "20000"
  , plain .gen "log_max_dnsbl_parse_err" "20000"
  , plain .gen "log_max_dnsreplylog" "20000"
  , plain .gen "log_max_unilog" "20000" ]

def ageCapFields : List ConfigField :=
  logTypes.map fun logType =>
    { sectionAlias := .gen, bare := "log_max_days_" ++ logType
      default := "0".toList }

/-- The one field with a privilege of its own. -/
def pfbSoftwareCheck : ConfigField :=
  { sectionAlias := .gen, bare := "pfb_software_check", default := "on".toList
    adapter := some .toggle, writePriv := some "pkg_mgr_installed.php" }

/-- The fields declared after the log caps. -/
def remainingFields : List ConfigField :=
  [ plain .gen "pfb_log_trim_margin_pct" "0"
  , adapted .gen "pfb_reentry_timeout" "1800" .reentryTimeout
  , pfbSoftwareCheck
  , adapted .gen "pfb_feed_internal_filter" "on" .toggle
  , plain .gen "pfb_feed_internal_allowlist" ""
  , adapted .gen "pfb_feed_sanity" "" .toggle
  , adapted .gen "pfb_reuse" "" .toggle
  , adapted .gen "pfb_metrics_export" "" .toggle
  , adapted .gen "pfb_alias_delta_mode" "auto" .aliasDeltaMode
  , plain .gen "pfb_alias_delta_batch" "512"
  , plain .gen "pfb_quiet_hours" ""
  , adapted .gen "pfb_syntax_highlight" "on" .toggle
  , adapted .dnsbl "pfb_dnsbl" "" .toggle
  , adapted .dnsbl "pfb_dnsvip_auto" "" .toggle
  , adapted .dnsbl "pfb_dnsbl_nonat" "" .toggle
  , plain .dnsbl "dnsbl_interface" "lo0"
  , plain .dnsbl "pfb_dnsvip4" ""
  , plain .dnsbl "pfb_dnsvip6" ""
  , plain .dnsbl "pfb_dnsvip_auto4" ""
  , plain .dnsbl "pfb_dnsvip_auto6" ""
  , plain .dnsbl "pfb_dnsport" "8081"
  , plain .dnsbl "pfb_dnsport_ssl" "8443"
  , adapted .dnsbl "top1m_enable" "" .toggle
  , adapted .dnsbl "top1m_source" "tranco" .top1mSource
  , plain .dnsbl "top1m_count" "1000"
  , plain .dnsbl "top1m_inclusion" ""
  , plain .dnsbl "top1m_token" ""
  , adapted .dnsbl "pfb_cache_flush" "" .toggle
  , plain .dnsbl "global_log" "disabled_log"
  , plain .dnsbl "global_log_mode" "default"
  , adapted .dnsbl "pfb_dnsbl_lenient" "off" .toggle
  , adapted .dnsbl "pfb_py_reply" "on" .toggle
  , adapted .dnsbl "pfb_hsts" "on" .toggle
  , adapted .dnsbl "pfb_idn" "" .idnMode
  , adapted .dnsbl "pfb_idn_block_malicious" "on" .toggle
  , adapted .dnsbl "pfb_idn_escalate_suspicious" "" .toggle
  , adapted .dnsbl "pfb_regex" "" .toggle
  , plain .dnsbl "pfb_regex_list" ""
  , adapted .dnsbl "pfb_regex_cap" "" .toggle
  , adapted .dnsbl "pfb_cname" "" .toggle
  , adapted .dnsbl "tld_allow" "" .toggle
  , adapted .dnsbl "pfb_psl_include_private" "on" .toggle
  , adapted .dnsbl "pfb_psl_allow_private" "" .toggle
  , adapted .dnsbl "pfb_psl_feed_private_policy" "" .feedSuffixPolicy
  , adapted .dnsbl "pfb_psl_feed_icann_policy" "" .feedSuffixPolicy
  , plain .dnsbl "tld_allow_sort" ""
  , plain .dnsbl "tld_allow_gtld" ""
  , plain .dnsbl "tld_allow_cctld" ""
  , plain .dnsbl "tld_allow_itld" ""
  , plain .dnsbl "tld_allow_bgtld" ""
  , adapted .dnsbl "pfb_py_nolog" "" .toggle
  , adapted .dnsbl "pfb_noaaaa" "" .toggle
  , plain .dnsbl "pfb_noaaaa_list" ""
  , adapted .dnsbl "pfb_gp" "" .toggle
  , plain .dnsbl "pfb_gp_bypass_list" ""
  , plain .dnsbl "tld_wildcard_blacklist" ""
  , plain .dnsbl "tld_wildcard_exclusion" ""
  , plain .dnsbl "whitelist" ""
  , plain .dnsbl "action" "Disabled"
  , plain .dnsbl "pfb_dnsbl_rule" "Disabled"
  , plain .dnsbl "dnsbl_allow_int" ""
  , plain .dnsbl "pfb_control" ""
  , plain .dnsbl "pfb_control_legacy" ""
  , plain .dnsbl "pfb_py_cache_max" ""
  , plain .dnsbl "tld_wildcard" ""
  , plain .dnsbl "aliaslog" "enabled"
  , adapted .dnsbl "dnsbl_redir" "" .toggle
  , plain .dnsbl "dnsbl_redir_int" ""
  , plain .dnsbl "dnsbl_redir_exclude" ""
  , adapted .dnsbl "dnsbl_dot_block" "" .toggle
  , plain .dnsbl "dnsbl_dot_block_int" ""
  , plain .dnsbl "dnsbl_dot_block_exclude" ""
  , plain .dnsbl "dnsbl_dot_block_action" "reject"
  , adapted .dnsbl "dnsbl_dot_block_floating" "" .toggle
  , adapted .dnsbl "autoaddrnot_in" "" .toggle
  , adapted .dnsbl "autoports_in" "" .toggle
  , adapted .dnsbl "autoaddr_in" "" .toggle
  , adapted .dnsbl "autonot_in" "" .toggle
  , adapted .dnsbl "autoaddrnot_out" "" .toggle
  , adapted .dnsbl "autoports_out" "" .toggle
  , adapted .dnsbl "autoaddr_out" "" .toggle
  , adapted .dnsbl "autonot_out" "" .toggle
  , zeroField .dnsbl "agateway_in" "default"
  , zeroField .dnsbl "agateway_out" "default"
  , zeroField .dnsbl "aliasaddr_in" ""
  , zeroField .dnsbl "aliasaddr_out" ""
  , zeroField .dnsbl "aliasports_in" ""
  , zeroField .dnsbl "aliasports_out" ""
  , zeroField .dnsbl "autoproto_in" ""
  , zeroField .dnsbl "autoproto_out" ""
  , adapted .gen "log_syslog" "" .toggle
  , plain .ss "safesearch_enable" "Disable"
  , plain .ss "safesearch_youtube" "Disable"
  , plain .ss "safesearch_doh" "Disable"
  , plain .ss "safesearch_doh_list" ""
  , plain .ip "v4suppression" ""
  , plain .ip "v6suppression" ""
  , adapted .ip "suppression" "on" .toggle
  , plain .ip "suppression_cidr" "Disabled"
  , plain .ip "suppression_cidr_v6" "Disabled"
  , adapted .ip "enable_dup" "" .toggle
  , adapted .ip "enable_agg" "" .toggle
  , adapted .ip "enable_log" "" .toggle
  , adapted .ip "enable_rdns" "" .toggle
  , adapted .ip "database_cc" "" .toggle
  , adapted .ip "enable_float" "" .toggle
  , adapted .ip "fw_self_outbound" "" .toggle
  , adapted .ip "killstates" "" .toggle
  , zeroField .ip "ip_placeholder" "127.1.7.7"
  , zeroField .ip "maxmind_locale" "en"
  , zeroField .ip "maxmind_account" ""
  , zeroField .ip "maxmind_key" ""
  , zeroField .ip "asn_reporting" "disabled"
  , zeroField .ip "asn_token" ""
  , plain .ip "inbound_interface" ""
  , zeroField .ip "inbound_deny_action" "block"
  , plain .ip "outbound_interface" ""
  , zeroField .ip "outbound_deny_action" "reject"
  , zeroField .ip "pass_order" "order_0"
  , zeroField .ip "autorule_suffix" "autorule"
  , adapted .rep "enable_rep" "" .toggle
  , adapted .rep "enable_pdup" "" .toggle
  , adapted .rep "enable_dedup" "" .toggle
  , adapted .global "alertrefresh" "on" .toggle
  , plain .sync "syncscope" "policy"
  , adapted .dns "pfb_dns" "" .toggle
  , plain .dns "pfb_dns_saved" ""
  , adapted .dnsShared "pfb_dns_doh" "" .toggle
  , plain .dnsShared "pfb_dns_doh_port" "4443"
  , plain .dns "pfb_dns_doh_interface" ""
  , plain .dnsShared "pfb_dns_doh_trusted" ""
  , adapted .dnsShared "pfb_dns_doq" "" .toggle
  , plain .dnsShared "pfb_dns_doq_port" "853"
  , plain .dns "pfb_dns_doq_interface" ""
  , adapted .dnsShared "pfb_dns_ddr" "" .toggle
  , plain .dns "pfb_dns_interface" ""
  , adapted .dnsShared "pfb_dns_dot" "" .toggle
  , plain .dnsShared "pfb_dns_dot_port" "853"
  , plain .dns "pfb_dns_dot_interface" ""
  , plain .dns "pfb_dns_sslcertref" ""
  , plain .dns "pfb_dns_name" ""
  , plain .dns "pfb_dns_ddr_doh_443_interfaces" "" ]

/-- The listener fields, which are added in two loops. -/
def listenerFields : List ConfigField :=
  ((pfbDnsPolicyFields ++ ["pfb_dns_dot_port6", "pfb_dns_doh_port6", "pfb_dns_doq_port6"]).map
    fun key =>
      { sectionAlias := if pfbDnsPolicyFields.contains key then .gen else .dnsShared
        bare := key
        default := []
        adapter := if ["pfb_dns_listen_vip", "pfb_dns_listen_vip_only"].contains key then
          some .toggle else none }) ++
    [ plain .gen "pfb_dns_listen_interface" "lo0", plain .gen "pfb_dns_listen_added" "" ]

def registeredFields : List ConfigField :=
  generalFields ++ ageCapFields ++ remainingFields ++ listenerFields

/-- The bytes of a field's name as a number, so that distinct names are told apart quickly. -/
def nameCode (key : SectionAlias × String) : Nat :=
  key.2.toByteArray.data.toList.foldl (fun n byte => n * 256 + byte.toNat) key.1.ctorIdx

/-- The numbers are distinct, and none of them is a bit of `seen`. -/
def distinctBits : List Nat → Nat → Bool
  | [], _ => true
  | n :: ns, seen => !seen.testBit n && distinctBits ns (seen ||| 2 ^ n)

theorem nodup_of_distinctBits {ns : List Nat} {seen : Nat} (h : distinctBits ns seen = true) :
    ns.Nodup ∧ ∀ n ∈ ns, seen.testBit n = false := by
  induction ns generalizing seen with
  | nil => simp
  | cons n ns ih =>
      simp only [distinctBits, Bool.and_eq_true, Bool.not_eq_true'] at h
      obtain ⟨hnodup, hseen⟩ := ih h.2
      have hrest : ∀ m ∈ ns, seen.testBit m = false ∧ n ≠ m := by
        simpa [Nat.testBit_or, Nat.testBit_two_pow] using hseen
      refine ⟨List.nodup_cons.mpr ⟨fun hmem => (hrest n hmem).2 rfl, hnodup⟩, fun m hm => ?_⟩
      rcases List.mem_cons.mp hm with rfl | hm
      · exact h.1
      · exact (hrest m hm).1

theorem nodup_nameCode :
    ((registeredFields.map fun f => (f.sectionAlias, f.bare)).map nameCode).Nodup := by
  have hbits : distinctBits (((registeredFields.map fun f => (f.sectionAlias, f.bare)).map
      nameCode).map (· % 3181)) 0 = true := by decide +kernel
  exact (nodup_of_distinctBits hbits).1.of_map

def pfbCfgRegistry : Registry where
  fields := registeredFields
  nodup := nodup_nameCode.of_map

end PfBlockerNG.ConfigRegistry
