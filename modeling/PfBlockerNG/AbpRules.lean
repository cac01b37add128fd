import PfBlockerNG.Bands
import PfBlockerNG.DomainNames

/-!
Feed lines: the capture guard that tells adblock rules from plain lines, the parser of
each, and the reduction of a regex rule to a domain.
-/

namespace PfBlockerNG.AbpRules

open PfBlockerNG.Strings
open PfBlockerNG.PyText
open PfBlockerNG.Bands
open PfBlockerNG.DomainNames

/-- `DNSBL_KIND_BLOCK` and `DNSBL_KIND_ALLOW`. -/
inductive Kind where
  | block
  | allow
  deriving DecidableEq, Repr

/-- `RULE_TARGET_DOMAIN` and `RULE_TARGET_REGEX`. -/
inductive Target where
  | domain
  | regex
  deriving DecidableEq, Repr

/-- `RULE_PROV_USER` and `RULE_PROV_FEED`. -/
inductive Provenance where
  | user
  | feed
  deriving DecidableEq, Repr

/-- `Rule`: one typed adblock rule. -/
structure Rule where
  kind : Kind
  target : Target
  keyOrPattern : Str
  important : Bool
  badfilter : Bool
  provenance : Provenance
  feed : Str
  group : Str
  log : Str
  signature : Str × List Str
  wildcard : Bool
  deriving DecidableEq, Repr

def elementHidingMarkers : List Str :=
  ["##".toList, "#@#".toList, "#?#".toList, "#%#".toList, "#$#".toList]

def pageContextOpts : List Str :=
  ["third-party", "~third-party", "domain", "script", "image", "stylesheet", "object",
    "subdocument", "document", "xmlhttprequest", "websocket", "ping", "media", "font", "popup",
    "csp", "elemhide", "generichide", "genericblock", "rewrite"].map String.toList

def nonDnsModifiers : List Str := ["dnsrewrite", "dnstype", "client", "ctag"].map String.toList

/-- The options of a rule that matter for DNS. -/
structure Options where
  dnsOpts : List Str := []
  important : Bool := false
  badfilter : Bool := false

/-- `_dnsbl_opt_name`. -/
def optName (opt : Str) : Str := strip (partition '=' opt).1

def classifyOption (opts : Options) (raw : Str) : Option Options :=
  let raw := strip raw
  if raw.isEmpty then some opts
  else
    let name := optName raw
    if pageContextOpts.contains name || nonDnsModifiers.contains name then none
    else if name = "important".toList then
      some { opts with dnsOpts := opts.dnsOpts ++ [name], important := true }
    else if name = "badfilter".toList then some { opts with badfilter := true }
    else none

/-- `_dnsbl_classify_options`; the names kept are all alike, so they are sorted. -/
def classifyOptions (optsStr : Str) : Option Options :=
  (optsStr.splitOn ',').foldlM classifyOption {}

/-- Options of a rule whose option text may be empty. -/
def ruleOptions (optsStr : Str) : Option Options :=
  if optsStr.isEmpty then some {} else classifyOptions optsStr

/-- What stands between the slashes of a regex rule, and the option text. -/
def splitRegexBody (body : Str) : Option (Str × Str) :=
  if endsWith "/".toList body then some (body.drop 1 |>.dropLast, [])
  else match rfind "/$".toList body with
    | none => none
    | some 0 => none
    | some marker => some ((body.take marker).drop 1, body.drop (marker + 2))

/-- `_dnsbl_parse_abp_regex`. -/
def parseAbpRegex (stripped : Str) : Option (Kind × Str × Str) :=
  let kindBody := if startsWith "@@/".toList stripped then some (Kind.allow, stripped.drop 2)
    else if startsWith "/".toList stripped then some (Kind.block, stripped) else none
  kindBody.bind fun (kind, body) =>
    (splitRegexBody body).bind fun (inner, opts) =>
      if inner.isEmpty then none else some (kind, inner, opts)

def isCosmeticPrefixChar (c : Char) : Bool :=
  ('A' ≤ c && c ≤ 'Z') || ('a' ≤ c && c ≤ 'z') || isAsciiDigit c || "._,~*-".toList.contains c

/-- The first marker of the line with its length, the shortest on a tie. -/
def firstMarker (line : Str) : Option (Nat × Nat) :=
  (elementHidingMarkers.filterMap fun m => (find m line).map (·, m.length)).foldl
    (fun best hit => match best with
      | none => some hit
      | some b => if hit.1 < b.1 ∨ (hit.1 = b.1 ∧ hit.2 < b.2) then some hit else some b) none

/-- The element-hiding branch of the guard. -/
def isElementHiding (text : Str) : Bool :=
  match firstMarker text with
  | none => false
  | some (0, length) => (text[length]?).any fun c => !isSpace c
  | some (first, _) => (text.take first).all isCosmeticPrefixChar

/-- The closing-slash shape of the guard. -/
def isRegexShaped (line : Str) : Bool :=
  startsWith "/".toList line && !startsWith "//".toList line &&
    ((endsWith "/".toList line && 1 < line.length) ||
      (rfind "/$".toList line).any fun marker => 0 < marker)

/-- `_dnsbl_is_abp_rule_line`. -/
def isAbpRuleLine (line : Str) : Bool :=
  if startsWith ",".toList line then false
  else startsWith "||".toList line || startsWith "@@".toList line || isElementHiding line ||
    isRegexShaped line

/-- What a line of a feed comes to: nothing, a reject that is tallied, or something kept. -/
inductive Outcome (α : Type) where
  | skip
  | reject (bucket : Bucket)
  | keep (a : α)
  deriving DecidableEq, Repr

/-- What is kept, if anything is. -/
def Outcome.kept {α : Type} : Outcome α → Option α
  | .keep a => some a
  | _ => none

/-- The manifest row's data a rule carries along. -/
structure RowInfo where
  provenance : Provenance
  feed : Str
  group : Str
  log : Str
  deriving DecidableEq, Repr

def RowInfo.rule (row : RowInfo) (kind : Kind) (target : Target) (key : Str) (opts : Options)
    (wildcard : Bool) : Rule where
  kind := kind
  target := target
  keyOrPattern := key
  important := opts.important
  badfilter := opts.badfilter
  provenance := row.provenance
  feed := row.feed
  group := row.group
  log := row.log
  signature := (key, opts.dnsOpts)
  wildcard := wildcard

/-- A domain target: normalised, its reject tallied. -/
def domainRule (u : Unicode) (row : RowInfo) (kind : Kind) (host optsStr : Str) : Outcome Rule :=
  match normaliseVerdict u host false with
  | .error bucket => .reject bucket
  | .ok domain =>
      match ruleOptions optsStr with
      | none => .skip
      | some opts => .keep (row.rule kind .domain domain opts true)

/-- Network rules: `||domain^` and `@@||domain^`. -/
def networkRule (u : Unicode) (row : RowInfo) (kind : Kind) (rest : Str) : Outcome Rule :=
  let (anchor, _, optsStr) := partition '$' rest
  let (host, _, tail) := partition '^' anchor
  if host.contains '/' || host.contains '*' || tail.contains '/' || tail.any (· != '^') then .skip
  else if isNumericHost host then .skip
  else domainRule u row kind host optsStr

/-- The first word and the rest of a stripped line of two words or more. -/
def splitWord (s : Str) : Option (Str × Str) :=
  let first := s.takeWhile fun c => !isSpace c
  let rest := s.drop first.length
  if rest.isEmpty then none else some (first, lstripWhile isSpace rest)

/-- `parse_abp`. -/
def parseAbp (u : Unicode) (row : RowInfo) (line : Str) : Outcome Rule :=
  let s := strip line
  if s.isEmpty || startsWith "!".toList s || startsWith "[".toList s || startsWith "#".toList s then
    .skip
  else if elementHidingMarkers.any fun m => (find m s).isSome then .skip
  else match parseAbpRegex s with
    | some (kind, inner, optsStr) =>
        match ruleOptions optsStr with
        | none => .skip
        | some opts => .keep (row.rule kind .regex inner opts false)
    | none =>
        if startsWith "@@||".toList s then networkRule u row .allow (s.drop 4)
        else if startsWith "||".toList s then networkRule u row .block (s.drop 2)
        else match splitWord s with
          | some (first, target) =>
              if !isIpv4 first then .skip
              else if isNumericHost (strip target) then .skip
              else domainRule u row .block (strip target) []
          | none =>
              if s.contains '/' || s.contains '*' then .skip
              else domainRule u row .block s []

/-- `_dnsbl_strip_hosts_prefix`. -/
def stripHostsPrefix (line : Str) : Str :=
  let (first, found, rest) := partition ' ' line
  if found then if isIpv4 first then strip rest else first else line

/-- `parse`: the domain token of a plain line. -/
def parse (line : Str) : Option Str :=
  let stripped := strip line
  if stripped.isEmpty || startsWith "#".toList stripped || startsWith "!".toList stripped then none
  else
    let token := stripDots (strip (stripHostsPrefix stripped))
    if token.isEmpty || isIpv4 token then none else some token

/-! ### Reduction of regex rules -/

def isLiteralChar (c : Char) : Bool :=
  ('A' ≤ c && c ≤ 'Z') || ('a' ≤ c && c ≤ 'z') || isAsciiDigit c || c == '_' || c == '-'

/-- Labels joined by escaped dots: inside a label, and whether a dot was passed. A final
newline is what `$` allows. -/
def isDomainLiteral (inLabel dotted : Bool) : Str → Bool
  | [] => inLabel && dotted
  | ['\n'] => inLabel && dotted
  | '\\' :: '.' :: s => inLabel && isDomainLiteral false true s
  | c :: s => isLiteralChar c && isDomainLiteral true dotted s

/-- `lit.replace("\\.", ".")`. -/
def unescapeDots : Str → Str
  | '\\' :: '.' :: s => '.' :: unescapeDots s
  | c :: s => c :: unescapeDots s
  | [] => []

def wildcardPrefixes : List Str := ["^(.+\\.)?".toList, "(^|\\.)".toList, "^(?:.+\\.)?".toList]

def wwwOpt : Str := "(www\\.)?".toList

/-- The domain of a literal, lower-cased. -/
def literalDomain (u : Unicode) (lit : Str) : Option Str :=
  if isDomainLiteral false false lit then some (u.lower (unescapeDots lit)) else none

/-- `_dnsbl_reduce_regex`: whether subdomains are covered, and the domain. -/
def reduceRegex (u : Unicode) (inner : Str) : Option (Bool × Str) :=
  if !endsWith "$".toList inner then none
  else
    let body := inner.dropLast
    match wildcardPrefixes.find? fun pre => startsWith pre body with
    | some pre => (literalDomain u (body.drop pre.length)).map (true, ·)
    | none =>
        if startsWith "^".toList body then
          let lit := body.drop 1
          let lit :=
            if u.lower (lit.take wwwOpt.length) = wwwOpt then lit.drop wwwOpt.length else lit
          (literalDomain u lit).map (false, ·)
        else none

end PfBlockerNG.AbpRules
