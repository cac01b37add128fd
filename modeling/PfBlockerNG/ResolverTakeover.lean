import Mathlib.Data.List.Infix
import PfBlockerNG.TextArea

/-!
Moving the DNS Resolver aside for the DNS proxy and putting it back: the snapshot of the Resolver
keys, the block in Custom Options between its two marker lines, and the scan of the
administrator's own text. Custom Options is the text whose base64 config.xml holds.
-/

namespace PfBlockerNG.ResolverTakeover

open PfBlockerNG.Strings
open PfBlockerNG.PyText
open PfBlockerNG.IpText
open PfBlockerNG.TextArea

/-- `PFB_DNS_PROXY_MARKER`. -/
def marker : Str := "# pfBlockerNG DNS proxy".toList

/-- `PFB_DNS_PROXY_MARKER_END`. -/
def markerEnd : Str := "# end pfBlockerNG DNS proxy".toList

def serverLine : Str := "server:".toList

def lo0 : Str := "lo0".toList

/-- The `PFB_DNS_PROXY_RESOLVER_KEYS`; an absent key is `none`. -/
structure Resolver where
  activeInterface : Option Str
  enablessl : Option Str
  customOptions : Option Str
deriving DecidableEq

/-- `dns/pfb_dns_saved`: empty, a snapshot, or a value that is neither. -/
inductive Saved where
  | empty
  | snapshot (keys : Resolver)
  | invalid
deriving DecidableEq

structure Config where
  resolver : Resolver
  saved : Saved
  /-- The listener settings of the proxy are stored. -/
  seeded : Bool
deriving DecidableEq

/-! The administrator's own directives. -/

def isQuote (c : Char) : Bool := c.toNat == 34 || c.toNat == 39

def isBackslash (c : Char) : Bool := c.toNat == 92

structure Scan where
  quote : Option Char
  escaped : Bool
  comment : Bool
  tokenStart : Bool
  /-- `$open`. -/
  unclosed : Bool

namespace Scan

def start : Scan := ⟨none, false, false, true, false⟩

/-- A quote or a backslash is open where the line ends. -/
def atLineEnd (st : Scan) : Bool :=
  st.unclosed || (!st.comment && (st.quote.isSome || st.escaped))

/-- The loop of `pfb_dns_proxy_directive_text()`. -/
def run : Scan → Str → Str × Bool
  | st, [] => ([], st.atLineEnd)
  | st, c :: text =>
      let keep := fun st' : Scan => let (code, unclosed) := run st' text; (c :: code, unclosed)
      if c = '\n' then keep { start with unclosed := st.atLineEnd }
      else if st.comment then run st text
      else if st.escaped then keep { st with escaped := false, tokenStart := false }
      else if isBackslash c then keep { st with escaped := true, tokenStart := false }
      else
        match st.quote with
        | some q => keep { st with quote := if c = q then none else some q, tokenStart := false }
        | none =>
            if c = '#' ∧ st.tokenStart then run { st with comment := true } text
            else keep { st with
              quote := if isQuote c then some c else none
              tokenStart := c = ' ' ∨ c = '\t' }

end Scan

/-- `pfb_dns_proxy_directive_text()`. -/
def directiveText (text : Str) : Str × Bool := Scan.start.run text

def isNameChar (c : Char) : Bool :=
  isAsciiDigit c || (97 ≤ c.toNat && c.toNat ≤ 122) || (65 ≤ c.toNat && c.toNat ≤ 90) ||
    c == '_' || c == '-'

/-- `[[:space:]]`. -/
def isPosixSpace (c : Char) : Bool := (9 ≤ c.toNat && c.toNat ≤ 13) || c == ' '

/-- The names that stand before a colon; `name` is the word just read, `spaced` whether blanks
followed it. -/
def namesFrom : Str → Bool → Str → List Str
  | _, _, [] => []
  | name, spaced, c :: text =>
      if c = ':' then
        if name = [] then namesFrom [] false text else name :: namesFrom [] false text
      else if isPosixSpace c then namesFrom name true text
      else if isNameChar c then
        if spaced then namesFrom [c] false text else namesFrom (name ++ [c]) false text
      else namesFrom [] false text

def directiveNames (code : Str) : List Str := namesFrom [] false code

inductive DirectiveKind where
  | fileInclude
  | listener
  | port
deriving DecidableEq

/-- What a directive's name says it could take. -/
def directiveKind (name : Str) : Option DirectiveKind :=
  let word := name.map asciiLower
  let parts := word.splitOn '-'
  if "include".toList ∈ parts then some .fileInclude
  else if word = "proxy-protocol-port".toList then none
  else if "interface".toList ∈ parts then some .listener
  else if parts.getLast? = some "port".toList then some .port
  else none

/-- `pfb_dns_proxy_listener_directive()`. -/
def listenerDirective (code : Str) : Option (DirectiveKind × Str) :=
  (directiveNames code).findSome? fun name => (directiveKind name).map fun kind => (kind, name)

/-- The text sets an `edns-buffer-size:` of its own. -/
def setsEdnsSize (code : Str) : Bool :=
  (directiveNames code).any fun name => name.map asciiLower == "edns-buffer-size".toList

/-! The block between the marker lines. -/

/-- The lines before the block and after it, as the `$stale` regex finds it: an end marker ends
the block, and a `server:` line right before the start marker belongs to it. -/
def findBlock (ls : List Str) : Option (List Str × List Str) :=
  match ls.span (· != marker) with
  | (_, []) => none
  | (before, _ :: rest) =>
      match rest.span (· != markerEnd) with
      | (_, []) => none
      | (_, _ :: after) =>
          some (if before.getLast? = some serverLine then before.dropLast else before, after)

/-- `$theirs`: the block cut out leaves an empty line. Only called where there is at most one. -/
def cutBlock (ls : List Str) : List Str :=
  match findBlock ls with
  | none => ls
  | some (before, after) => before ++ [] :: after

/-- `pfb_dns_proxy_block_present()`. -/
def blockPresent (ls : List Str) : Bool := marker ∈ ls.map trim

/-- One complete pair of marker lines, alone on their lines. -/
def onePair (ls : List Str) : Bool :=
  let trimmed := ls.map trim
  trimmed.count marker == 1 && trimmed.count markerEnd == 1 &&
    decide (trimmed.idxOf marker < trimmed.idxOf markerEnd) &&
    ls.count marker == 1 && ls.count markerEnd == 1

/-- `$whole`. -/
def whole (ls : List Str) : Bool :=
  let trimmed := ls.map trim
  (!trimmed.contains marker && !trimmed.contains markerEnd) || onePair ls

/-- The text of a valid network. -/
structure Network where
  text : Str
  chars : ∀ c ∈ text, (isHexDigit c || c == ':' || c == '.' || c == '/') = true

/-- What one move finds of the system around it. -/
structure Circumstances where
  /-- The Resolver's Listen Port. -/
  listenPort : Nat
  /-- `pfb_dns_proxy_upstream_address()` is 127.0.0.1. -/
  loopbackIpv4 : Bool
  /-- The Advanced page leaves the EDNS size to pfSense. -/
  ednsAutomatic : Bool
  ednsSize : Nat
  /-- `pfb_dns_proxy_acl_networks()`. -/
  networks : List Network

/-- `pfb_dns_proxy_listen_port_conflict()`. -/
def listenPortConflict (listenPort : Nat) : Option Str :=
  if listenPort = 5353 then some "5353".toList
  else if listenPort = 5354 then some "5354".toList
  else none

/-- `pfb_dns_proxy_edns_line()`. -/
def ednsLine (c : Circumstances) (adminCode : Str) : List Str :=
  if !c.ednsAutomatic || setsEdnsSize adminCode then []
  else ["edns-buffer-size: ".toList ++ Nat.toDigits 10 c.ednsSize]

/-- The lines between the markers. -/
def clauseLines (c : Circumstances) (adminCode : Str) : List Str :=
  "port: 5354".toList ::
    ((if c.loopbackIpv4 then ["interface: 127.0.0.1@5353".toList] else []) ++
      "interface: ::1@5353".toList :: "proxy-protocol-port: 5353".toList ::
        (ednsLine c adminCode ++
          c.networks.map fun n => "access-control: ".toList ++ n.text ++ " allow".toList))

def blockLines (c : Circumstances) (adminCode : Str) : List Str :=
  serverLine :: marker :: (clauseLines c adminCode ++ [markerEnd])

/-! The move and the restore. -/

/-- Why a move is refused. -/
inductive Refusal where
  | listenPort (port : Str)
  | brokenBlock
  | unclosedQuote
  | directive (kind : DirectiveKind) (name : Str)
  | blockWithoutSnapshot
  | invalidSnapshot
deriving DecidableEq

structure Outcome where
  config : Config
  returned : Bool
  /-- `write_config()` was called. -/
  written : Bool
  unsafeLine : Option Str
  refusal : Option Refusal
deriving DecidableEq

/-- `pfb_dns_proxy_refuse()`. -/
def refuse (cfg : Config) (why : Refusal) : Outcome := ⟨cfg, false, false, none, some why⟩

/-- The line reported for a directive found after the move. -/
def reportedLine (name : Str) (theirs : List Str) : Str :=
  match theirs.find? fun l => (listenerDirective (directiveText l).1).isSome with
  | some l => (trim l).take 200
  | none => name ++ [':']

section Move

variable (U : TextClasses)

/-- Custom Options with the block of this move. -/
def putBlock (custom : Str) (block : List Str) : Str :=
  match findBlock (linesOf custom) with
  | some (before, after) => unlines (before ++ block ++ after)
  | none =>
      if custom = [] ∨ custom.getLast? = some '\n' then custom ++ unlines block
      else custom ++ '\n' :: unlines block

/-- The part of a move after the refusals; `taken` is set when it stored the snapshot. -/
def applyMove (cfg : Config) (taken : Bool) (custom adminCode : Str) (c : Circumstances) :
    Outcome :=
  let block := blockLines c adminCode
  let kept := decide (unlines block <:+: custom)
  let changed := taken || cfg.resolver.activeInterface != some lo0 ||
    cfg.resolver.enablessl.isSome || !kept
  let resolver : Resolver :=
    { activeInterface := some lo0
      enablessl := none
      customOptions :=
        if kept then cfg.resolver.customOptions
        else some (pfbSanitizeTextArea U (putBlock custom block)) }
  ⟨{ cfg with resolver := resolver, seeded := true }, changed, changed || !cfg.seeded, none, none⟩

/-- `pfb_dns_proxy_resolver_locked(TRUE)`; every write is taken. -/
def move (cfg : Config) (c : Circumstances) : Outcome :=
  let custom := crlfToLf (cfg.resolver.customOptions.getD [])
  let ls := linesOf custom
  match listenPortConflict c.listenPort with
  | some port =>
      match cfg.saved with
      | .snapshot _ => ⟨cfg, false, false, some ("Listen Port ".toList ++ port), none⟩
      | _ => refuse cfg (.listenPort port)
  | none =>
      if !whole ls then refuse cfg .brokenBlock
      else
        let theirs := cutBlock ls
        let (code, unclosed) := directiveText (unlines theirs)
        if unclosed then refuse cfg .unclosedQuote
        else
          match listenerDirective code with
          | some (kind, name) =>
              match cfg.saved with
              | .snapshot keys =>
                  let custom := some (pfbSanitizeTextArea U (unlines theirs))
                  ⟨{ cfg with saved := .snapshot { keys with customOptions := custom } }, true,
                    true, some (reportedLine name theirs), none⟩
              | _ => refuse cfg (.directive kind name)
          | none =>
              match cfg.saved with
              | .snapshot _ => applyMove U cfg false custom code c
              | .empty =>
                  if blockPresent ls then refuse cfg .blockWithoutSnapshot
                  else applyMove U { cfg with saved := .snapshot cfg.resolver } true custom code c
              | .invalid =>
                  if blockPresent ls then refuse cfg .blockWithoutSnapshot
                  else refuse cfg .invalidSnapshot

/-- The configuration after a number of moves. -/
def moves (cfg : Config) (cs : List Circumstances) : Config :=
  cs.foldl (fun cfg c => (move U cfg c).config) cfg

end Move

/-- `pfb_dns_proxy_resolver_locked(FALSE)`, with the proxy stopped. -/
def restore (cfg : Config) : Config :=
  match cfg.saved with
  | .snapshot keys => { cfg with resolver := keys, saved := .empty }
  | _ => cfg

end PfBlockerNG.ResolverTakeover
