import Mathlib.Data.List.Forall2
import PfBlockerNG.DnsNameWire

/-!
The round trip of the wire codec: a message that `parse` accepts, or that fits on the wire, is
encoded, and parsing the encoding gives the message back up to the spelling of its names.
-/

namespace PfBlockerNG.DnsWireRoundTrip

open PfBlockerNG.ByteStrings
open PfBlockerNG.Strings
open PfBlockerNG.PyText
open PfBlockerNG.DnsNames
open PfBlockerNG.DnsWire
open PfBlockerNG.DnsNameWire

/-- The rdata follows a layout, its names uncompressed. -/
def FollowsLayout : List Part → Bytes → Prop
  | [], rdata => rdata = []
  | .octets n :: parts, rdata =>
      ∃ field rest, rdata = field ++ rest ∧ field.length = n ∧ FollowsLayout parts rest
  | .name :: parts, rdata =>
      ∃ labels rest, rdata = uncompressed labels ++ rest ∧ ValidLabels labels ∧
        FollowsLayout parts rest

/-- The rdata is canonical for its type. -/
def Canonical (rtype : Nat) (rdata : Bytes) : Prop :=
  ∀ layout, nameLayouts.lookup rtype = some layout → FollowsLayout layout rdata

/-- `name_to_labels` accepts the name. -/
def Accepted (t : DigitTables) (name : Str) : Prop := ∃ labels, nameToLabels t name = .ok labels

structure QuestionFits (t : DigitTables) (question : Question) : Prop where
  name : Accepted t question.name
  qtype : question.qtype < 256 ^ 2
  qclass : question.qclass < 256 ^ 2

structure RecordFits (t : DigitTables) (rr : RR) : Prop where
  name : Accepted t rr.name
  rtype : rr.rtype < 256 ^ 2
  rclass : rr.rclass < 256 ^ 2
  ttl : rr.ttl < 256 ^ 4
  rdlength : rr.rdata.length ≤ 65535
  canonical : Canonical rr.rtype rr.rdata

/-- The message fits on the wire. -/
structure Fits (t : DigitTables) (message : Message) : Prop where
  id : message.id < 256 ^ 2
  flags : message.flags < 256 ^ 2
  qdcount : message.questions.length < 256 ^ 2
  ancount : message.answers.length < 256 ^ 2
  nscount : message.authority.length < 256 ^ 2
  arcount : message.additional.length < 256 ^ 2
  questions : ∀ question ∈ message.questions, QuestionFits t question
  answers : ∀ rr ∈ message.answers, RecordFits t rr
  authority : ∀ rr ∈ message.authority, RecordFits t rr
  additional : ∀ rr ∈ message.additional, RecordFits t rr

/-- The texts are equal up to ASCII case. -/
def SameText (name name' : Str) : Prop := name.map asciiLower = name'.map asciiLower

/-- The names have the same labels up to ASCII case, and the second is the canonical spelling. -/
def SameLabels (t : DigitTables) (name name' : Str) : Prop :=
  ∃ labels labels', nameToLabels t name = .ok labels ∧ nameToLabels t name' = .ok labels' ∧
    labels.map lower = labels'.map lower ∧ name' = labelsToText labels'

/-- Equal in everything but the names, which are related by `same`. -/
structure SameQuestion (same : Str → Str → Prop) (q q' : Question) : Prop where
  name : same q.name q'.name
  qtype : q.qtype = q'.qtype
  qclass : q.qclass = q'.qclass

structure SameRecord (same : Str → Str → Prop) (rr rr' : RR) : Prop where
  name : same rr.name rr'.name
  rtype : rr.rtype = rr'.rtype
  rclass : rr.rclass = rr'.rclass
  ttl : rr.ttl = rr'.ttl
  rdata : rr.rdata = rr'.rdata

structure SameMessage (same : Str → Str → Prop) (m m' : Message) : Prop where
  id : m.id = m'.id
  flags : m.flags = m'.flags
  questions : List.Forall₂ (SameQuestion same) m.questions m'.questions
  answers : List.Forall₂ (SameRecord same) m.answers m'.answers
  authority : List.Forall₂ (SameRecord same) m.authority m'.authority
  additional : List.Forall₂ (SameRecord same) m.additional m'.additional

/-! ### Items of a section -/

/-- Writing `x` keeps the writer sound, takes at least `size` octets, and `item` reads a value
related to `x` from where it was written. -/
def Faithful {α : Type} (put : α → Writer → Except EncodeError Writer)
    (item : Bytes → Nat → Except String (α × Nat)) (same : α → α → Prop) (size : Nat)
    (x : α) : Prop :=
  ∀ w, Sound w → ∃ w' y, put x w = .ok w' ∧ Sound w' ∧ w.out <+: w'.out ∧
    w.out.length + size ≤ w'.out.length ∧ same x y ∧
    ∀ data, w'.out <+: data → item data w.out.length = .ok (y, w'.out.length)

/-- The same for the items of a section. -/
theorem faithful_all {α : Type} {put : α → Writer → Except EncodeError Writer}
    {item : Bytes → Nat → Except String (α × Nat)} {same : α → α → Prop} {size : Nat}
    {xs : List α} (h : ∀ x ∈ xs, Faithful put item same size x) (w : Writer) (hsound : Sound w) :
    ∃ w' ys, putAll put xs w = .ok w' ∧ Sound w' ∧ w.out <+: w'.out ∧
      w.out.length + xs.length * size ≤ w'.out.length ∧ List.Forall₂ same xs ys ∧
      ∀ data, w'.out <+: data →
        repeated (item data) xs.length w.out.length = .ok (ys, w'.out.length) := by
  induction xs generalizing w with
  | nil =>
      refine ⟨w, [], rfl, hsound, List.prefix_refl _, by simp, List.Forall₂.nil, ?_⟩
      intro data _
      rfl
  | cons x xs ih =>
      obtain ⟨w₁, y, hput, hsound₁, hext, hsize, hsame, hread⟩ :=
        h x List.mem_cons_self w hsound
      obtain ⟨w₂, ys, hputs, hsound₂, hexts, hsizes, hsames, hreads⟩ :=
        ih (fun x' hx' => h x' (List.mem_cons_of_mem _ hx')) w₁ hsound₁
      refine ⟨w₂, y :: ys, ?_, hsound₂, hext.trans hexts, ?_, .cons hsame hsames, ?_⟩
      · rw [putAll, hput]
        exact hputs
      · rw [List.length_cons, Nat.succ_mul]
        omega
      · intro data hdata
        rw [List.length_cons, repeated, hread data (hexts.trans hdata)]
        dsimp only [bind, Except.bind]
        rw [hreads data hdata]
        rfl

theorem putAll_append {α : Type} (put : α → Writer → Except EncodeError Writer)
    (xs ys : List α) (w : Writer) :
    putAll put (xs ++ ys) w = putAll put xs w >>= putAll put ys := by
  induction xs generalizing w with
  | nil => rfl
  | cons x xs ih =>
      rw [List.cons_append, putAll, putAll, bind_assoc]
      congr 1
      funext w'
      exact ih w'

/-! ### Writing one item -/

theorem sound_extend {w : Writer} (h : Sound w) (bs : Bytes) : Sound (w.extend bs) := by
  intro entry hentry
  rw [Writer.extend_seen] at hentry
  exact (h entry hentry).mono (w.extend_begins bs)

/-- An accepted name is written, and read back as the canonical text of its labels up to case. -/
theorem putName_faithful {t : DigitTables} {name : Str} (h : Accepted t name) {w : Writer}
    (hsound : Sound w) :
    ∃ w' found, putName t name w = .ok w' ∧ Sound w' ∧ w.out <+: w'.out ∧
      w.out.length < w'.out.length ∧ SameLabels t name (labelsToText found) ∧
      ∀ data, w'.out <+: data → readName data w.out.length = .ok (found, w'.out.length) := by
  obtain ⟨labels, hlabels⟩ := h
  have hvalid := nameToLabels_valid hlabels
  obtain ⟨w', hput, hwritten, hsound'⟩ := putLabels_sound hvalid hsound
  obtain ⟨found, hlower, hread⟩ := hwritten.readName hvalid
  have hfound := hvalid.of_lower_eq hlower.symm
  refine ⟨w', found, ?_, hsound', hwritten.extended, hwritten.lt_length, ?_, hread⟩
  · rw [putName, hlabels]
    exact hput
  · exact ⟨labels, found, hlabels, nameToLabels_labelsToText t hfound, hlower.symm, rfl⟩

theorem putQuestion_faithful {t : DigitTables} {question : Question}
    (h : QuestionFits t question) :
    Faithful (putQuestion t) parseQuestion (SameQuestion (SameLabels t)) 5 question := by
  intro w hsound
  obtain ⟨w₁, found, hput, hsound₁, hext, hlt, hsame, hread⟩ := putName_faithful h.name hsound
  have hfields := w₁.extend_at (toOctets 2 question.qtype ++ toOctets 2 question.qclass)
  have hbegins := w₁.extend_begins (toOctets 2 question.qtype ++ toOctets 2 question.qclass)
  refine ⟨_, ⟨labelsToText found, question.qtype, question.qclass⟩, ?_, sound_extend hsound₁ _,
    hext.trans hbegins, ?_, ⟨hsame, rfl, rfl⟩, ?_⟩
  · rw [putQuestion, hput, pack_eq_ok h.qtype, pack_eq_ok h.qclass]
    rfl
  · rw [Writer.extend_length, List.length_append, toOctets_length, toOctets_length]
    omega
  · intro data hdata
    have hat := hfields.mono hdata
    have hqtype := hat.append_left.unpack h.qtype
    have hqclass := hat.append_right.unpack h.qclass
    have hlen := hdata.length_le
    rw [toOctets_length] at hqclass
    rw [Writer.extend_length, List.length_append, toOctets_length, toOctets_length] at hlen ⊢
    have hinside : ¬ data.length < w₁.out.length + 4 := by omega
    rw [parseQuestion, hread data (hbegins.trans hdata)]
    simp only [bind, Except.bind, if_neg hinside, hqtype, hqclass]
    rfl

/-! ### Canonical rdata -/

theorem expandParts_of_followsLayout {data : Bytes} {stop : Nat} {parts : List Part}
    {rdata : Bytes} (h : FollowsLayout parts rdata) {cur : Nat} (hat : At data cur rdata)
    (hstop : cur + rdata.length ≤ stop) :
    expandParts data stop parts cur = .ok (rdata, cur + rdata.length) := by
  induction parts generalizing rdata cur with
  | nil =>
      rw [FollowsLayout] at h
      subst h
      rfl
  | cons part parts ih =>
      cases part with
      | octets n =>
          obtain ⟨field, rest, rfl, rfl, hrest⟩ := h
          rw [List.length_append] at hstop
          have hinside : ¬ stop < cur + field.length := by omega
          have hnext := ih hrest hat.append_right (by omega)
          rw [expandParts, if_neg hinside]
          simp only [bind, Except.bind, pure, Except.pure, hnext, hat.append_left.take]
          rw [List.length_append, Nat.add_assoc]
      | name =>
          obtain ⟨labels, rest, rfl, hvalid, hrest⟩ := h
          have hread : readName data cur = .ok (labels, cur + wireLength labels) :=
            readName_of_nameAt
              (nameAt_uncompressed hvalid.nonempty hvalid.short cur hat.append_left) hvalid.fits
              (Nat.zero_le _)
          have hright := hat.append_right
          rw [List.length_append, uncompressed_length] at hstop
          rw [uncompressed_length] at hright
          have hinside : ¬ stop < cur + wireLength labels := by omega
          have hnext := ih hrest hright (by omega)
          rw [expandParts, hread]
          simp only [bind, Except.bind, pure, Except.pure, if_neg hinside, hnext]
          rw [List.length_append, uncompressed_length, Nat.add_assoc]

/-- Canonical rdata is its own expansion. -/
theorem expandRdata_of_canonical {data : Bytes} {rtype start : Nat} {rdata : Bytes}
    (h : Canonical rtype rdata) (hat : At data start rdata) :
    expandRdata data rtype start (start + rdata.length) = .ok rdata := by
  unfold expandRdata
  cases hlayout : nameLayouts.lookup rtype with
  | none =>
      have htake := hat.take
      simp only [Nat.add_sub_cancel_left, htake]
  | some layout =>
      have hparts := expandParts_of_followsLayout (h layout hlayout) hat (Nat.le_refl _)
      simp only [hparts, bind, Except.bind, pure, Except.pure, ne_eq, not_true_eq_false, if_false]

/-- The fixed fields of a record and its rdata. -/
def recordOctets (rr : RR) : Bytes :=
  toOctets 2 rr.rtype ++ toOctets 2 rr.rclass ++ toOctets 4 rr.ttl ++
    toOctets 2 rr.rdata.length ++ rr.rdata

theorem recordOctets_length (rr : RR) : (recordOctets rr).length = 10 + rr.rdata.length := by
  simp only [recordOctets, List.length_append, toOctets_length]

theorem putRecord_faithful {t : DigitTables} {rr : RR} (h : RecordFits t rr) :
    Faithful (putRecord t) parseRecord (SameRecord (SameLabels t)) 11 rr := by
  intro w hsound
  obtain ⟨w₁, found, hput, hsound₁, hext, hlt, hsame, hread⟩ := putName_faithful h.name hsound
  have hrdlength : rr.rdata.length < 256 ^ 2 := Nat.lt_succ_of_le h.rdlength
  have hfields := w₁.extend_at (recordOctets rr)
  have hbegins := w₁.extend_begins (recordOctets rr)
  refine ⟨w₁.extend (recordOctets rr),
    ⟨labelsToText found, rr.rtype, rr.rclass, rr.ttl, rr.rdata⟩, ?_, sound_extend hsound₁ _,
    hext.trans hbegins, ?_, ⟨hsame, rfl, rfl, rfl, rfl⟩, ?_⟩
  · rw [putRecord, hput, pack_eq_ok h.rtype, pack_eq_ok h.rclass, pack_eq_ok h.ttl,
      pack_eq_ok hrdlength]
    rfl
  · rw [Writer.extend_length, recordOctets_length]
    omega
  · intro data hdata
    have hat := hfields.mono hdata
    have hlen := hdata.length_le
    rw [Writer.extend_length, recordOctets_length, ← Nat.add_assoc] at hlen ⊢
    have hrdata := hat.append_right
    have hat₄ := hat.append_left
    have hat₃ := hat₄.append_left
    have hat₂ := hat₃.append_left
    have hrtype := hat₂.append_left.unpack h.rtype
    have hrclass := hat₂.append_right.unpack h.rclass
    have httl := hat₃.append_right.unpack h.ttl
    have hcount := hat₄.append_right.unpack hrdlength
    simp only [List.length_append, toOctets_length, Nat.reduceAdd] at hrdata hrclass httl hcount
    have hfixed : ¬ data.length < w₁.out.length + 10 := by omega
    have hinside : ¬ data.length < w₁.out.length + 10 + rr.rdata.length := by omega
    have hexpand := expandRdata_of_canonical h.canonical hrdata
    rw [parseRecord, hread data (hbegins.trans hdata)]
    simp only [bind, Except.bind, pure, Except.pure, if_neg hfixed, hrtype, hrclass, httl, hcount,
      if_neg hinside, hexpand]

/-! ### Messages -/

/-- The header `encode` writes. -/
def headerOctets (m : Message) : Bytes :=
  toOctets 2 m.id ++ toOctets 2 m.flags ++ toOctets 2 m.questions.length ++
    toOctets 2 m.answers.length ++ toOctets 2 m.authority.length ++
    toOctets 2 m.additional.length

theorem headerOctets_length (m : Message) : (headerOctets m).length = headerSize := by
  simp only [headerOctets, List.length_append, toOctets_length, headerSize]

theorem encode_eq {t : DigitTables} {m : Message} (h : Fits t m) :
    encode t m = (do
      let w ← putAll (putQuestion t) m.questions ⟨headerOctets m, []⟩
      let w ← putAll (putRecord t) (m.answers ++ m.authority ++ m.additional) w
      return w.out) := by
  rw [encode, pack_eq_ok h.id, pack_eq_ok h.flags, pack_eq_ok h.qdcount, pack_eq_ok h.ancount,
    pack_eq_ok h.nscount, pack_eq_ok h.arcount]
  rfl

/-- A message that fits on the wire is encoded, and parsing gives it back. -/
theorem parse_encode_of_fits {t : DigitTables} {m : Message} (h : Fits t m) :
    ∃ wire m', encode t m = .ok wire ∧ parse wire = .ok m' ∧ SameMessage (SameLabels t) m m' := by
  have hstart : Sound ⟨headerOctets m, []⟩ := fun _ hentry => absurd hentry List.not_mem_nil
  obtain ⟨w₁, qs, hput₁, hsound₁, hext₁, hsize₁, hsame₁, hread₁⟩ :=
    faithful_all (fun q hq => putQuestion_faithful (h.questions q hq)) _ hstart
  obtain ⟨w₂, as, hput₂, hsound₂, hext₂, hsize₂, hsame₂, hread₂⟩ :=
    faithful_all (fun rr hrr => putRecord_faithful (h.answers rr hrr)) _ hsound₁
  obtain ⟨w₃, ns, hput₃, hsound₃, hext₃, hsize₃, hsame₃, hread₃⟩ :=
    faithful_all (fun rr hrr => putRecord_faithful (h.authority rr hrr)) _ hsound₂
  obtain ⟨w₄, ar, hput₄, hsound₄, hext₄, hsize₄, hsame₄, hread₄⟩ :=
    faithful_all (fun rr hrr => putRecord_faithful (h.additional rr hrr)) _ hsound₃
  refine ⟨w₄.out, ⟨m.id, m.flags, qs, as, ns, ar⟩, ?_, ?_,
    ⟨rfl, rfl, hsame₁, hsame₂, hsame₃, hsame₄⟩⟩
  · rw [encode_eq h]
    simp only [putAll_append, bind, Except.bind, pure, Except.pure, hput₁, hput₂, hput₃, hput₄]
  · have hfour := List.prefix_refl w₄.out
    have hthree := hext₄.trans hfour
    have htwo := hext₃.trans hthree
    have hone := hext₂.trans htwo
    have hat : At w₄.out 0 (headerOctets m) := hext₁.trans hone
    have hat₅ := hat.append_left
    have hat₄ := hat₅.append_left
    have hat₃ := hat₄.append_left
    have hat₂ := hat₃.append_left
    have hid := hat₂.append_left.unpack h.id
    have hflags := hat₂.append_right.unpack h.flags
    have hqd := hat₃.append_right.unpack h.qdcount
    have han := hat₄.append_right.unpack h.ancount
    have hns := hat₅.append_right.unpack h.nscount
    have har := hat.append_right.unpack h.arcount
    simp only [List.length_append, toOctets_length, Nat.reduceAdd] at hflags hqd han hns har
    have hheader := headerOctets_length m
    have hread₁ := hread₁ _ hone
    rw [hheader] at hread₁ hsize₁
    simp only [headerSize] at hsize₁
    have hlong : ¬ w₄.out.length < headerSize := by
      simp only [headerSize]
      omega
    have hcounts : ¬ w₄.out.length - headerSize < m.questions.length * 5 +
        (m.answers.length + m.authority.length + m.additional.length) * 11 := by
      simp only [headerSize]
      omega
    rw [parse, hid, hflags, hqd, han, hns, har]
    simp only [bind, Except.bind, pure, Except.pure, if_neg hlong, if_neg hcounts, hread₁,
      hread₂ _ htwo, hread₃ _ hthree, hread₄ _ hfour]

/-! ### What `parse` accepts -/

/-- The text is the canonical spelling of labels that fit on the wire. -/
def Spelled (name : Str) : Prop := ∃ labels, ValidLabels labels ∧ name = labelsToText labels

theorem Spelled.accepted {name : Str} (h : Spelled name) (t : DigitTables) :
    Accepted t name := by
  obtain ⟨labels, hvalid, rfl⟩ := h
  exact ⟨labels, nameToLabels_labelsToText t hvalid⟩

/-- A canonical spelling comes back equal up to ASCII case. -/
theorem SameLabels.sameText {t : DigitTables} {name name' : Str} (h : SameLabels t name name')
    (hspelled : Spelled name) : SameText name name' := by
  obtain ⟨labels, hvalid, rfl⟩ := hspelled
  obtain ⟨found, labels', hfound, -, hlower, rfl⟩ := h
  rw [nameToLabels_labelsToText t hvalid] at hfound
  injection hfound with hfound
  subst hfound
  rw [SameText, labelsToText_lower, labelsToText_lower, hlower]

/-- Octets a layout can take: a name takes at most 255. -/
def layoutBound : List Part → Nat
  | [] => 0
  | .octets n :: parts => n + layoutBound parts
  | .name :: parts => maxName + layoutBound parts

theorem FollowsLayout.length_le {parts : List Part} {rdata : Bytes}
    (h : FollowsLayout parts rdata) : rdata.length ≤ layoutBound parts := by
  induction parts generalizing rdata with
  | nil =>
      rw [FollowsLayout] at h
      subst h
      exact Nat.le_refl 0
  | cons part parts ih =>
      cases part with
      | octets n =>
          obtain ⟨field, rest, rfl, hfield, hrest⟩ := h
          have hle := ih hrest
          rw [List.length_append, layoutBound]
          omega
      | name =>
          obtain ⟨labels, rest, rfl, hvalid, hrest⟩ := h
          have hle := ih hrest
          have hfits := hvalid.fits
          rw [List.length_append, uncompressed_length, layoutBound]
          omega

theorem layoutBound_le : ∀ entry ∈ nameLayouts, layoutBound entry.2 ≤ 65535 := by
  decide

theorem expandParts_followsLayout {data : Bytes} {stop : Nat} {parts : List Part} {cur : Nat}
    {rdata : Bytes} {last : Nat} (hstop : stop ≤ data.length)
    (h : expandParts data stop parts cur = .ok (rdata, last)) : FollowsLayout parts rdata := by
  induction parts generalizing cur rdata last with
  | nil =>
      cases h
      rfl
  | cons part parts ih =>
      cases part with
      | octets n =>
          rw [expandParts] at h
          split at h
          · cases h
          · next hinside =>
              simp only [bind_eq_ok_iff] at h
              obtain ⟨⟨out, last'⟩, hparts, hret⟩ := h
              cases hret
              refine ⟨(data.drop cur).take n, out, rfl, ?_, ih hparts⟩
              rw [List.length_take, List.length_drop]
              omega
      | name =>
          simp only [expandParts, bind_eq_ok_iff] at h
          obtain ⟨⟨labels, cur'⟩, hread, h⟩ := h
          split at h
          · cases h
          · simp only [bind_eq_ok_iff] at h
            obtain ⟨⟨out, last'⟩, hparts, hret⟩ := h
            cases hret
            exact ⟨labels, out, rfl, readName_valid hread, ih hparts⟩

/-- Expanded rdata is canonical and fits its length field. -/
theorem expandRdata_canonical {data : Bytes} {rtype start stop : Nat} {rdata : Bytes}
    (hstop : stop ≤ data.length) (hlen : stop - start ≤ 65535)
    (h : expandRdata data rtype start stop = .ok rdata) :
    Canonical rtype rdata ∧ rdata.length ≤ 65535 := by
  unfold expandRdata at h
  cases hlayout : nameLayouts.lookup rtype with
  | none =>
      rw [hlayout] at h
      cases h
      refine ⟨fun layout hsome => ?_, (List.length_take_le _ _).trans hlen⟩
      rw [hlayout] at hsome
      cases hsome
  | some layout =>
      simp only [hlayout, bind_eq_ok_iff] at h
      obtain ⟨⟨out, cur⟩, hparts, h⟩ := h
      split at h
      · cases h
      · cases h
        have hfollows := expandParts_followsLayout hstop hparts
        obtain ⟨l₁, l₂, hsplit, -⟩ := List.lookup_eq_some_iff.mp hlayout
        have hmem : (rtype, layout) ∈ nameLayouts := by
          rw [hsplit]
          exact List.mem_append_right _ List.mem_cons_self
        refine ⟨fun layout' hsome => ?_, hfollows.length_le.trans (layoutBound_le _ hmem)⟩
        rw [hlayout] at hsome
        cases hsome
        exact hfollows

theorem parseQuestion_fits {data : Bytes} {pos last : Nat} {question : Question}
    (h : parseQuestion data pos = .ok (question, last)) (t : DigitTables) :
    QuestionFits t question ∧ Spelled question.name := by
  simp only [parseQuestion, bind_eq_ok_iff] at h
  obtain ⟨⟨labels, cur⟩, hread, h⟩ := h
  have hspelled : Spelled (labelsToText labels) := ⟨labels, readName_valid hread, rfl⟩
  split at h
  · cases h
  · cases h
    exact ⟨⟨hspelled.accepted t, unpack_lt _ _ _, unpack_lt _ _ _⟩, hspelled⟩

theorem parseRecord_fits {data : Bytes} {pos last : Nat} {rr : RR}
    (h : parseRecord data pos = .ok (rr, last)) (t : DigitTables) :
    RecordFits t rr ∧ Spelled rr.name := by
  simp only [parseRecord, bind_eq_ok_iff] at h
  obtain ⟨⟨labels, cur⟩, hread, h⟩ := h
  have hspelled : Spelled (labelsToText labels) := ⟨labels, readName_valid hread, rfl⟩
  split at h
  · cases h
  · split at h
    · cases h
    · next hinside =>
        simp only [bind_eq_ok_iff] at h
        obtain ⟨rdata, hexpand, hret⟩ := h
        have hcount := unpack_lt 2 data (cur + 8)
        have hlen : cur + 10 + unpack 2 data (cur + 8) - (cur + 10) ≤ 65535 := by omega
        obtain ⟨hcanonical, hrdlength⟩ :=
          expandRdata_canonical (Nat.not_lt.mp hinside) hlen hexpand
        cases hret
        exact ⟨⟨hspelled.accepted t, unpack_lt _ _ _, unpack_lt _ _ _, unpack_lt _ _ _, hrdlength,
          hcanonical⟩, hspelled⟩

theorem repeated_eq_ok {α : Type} {item : Nat → Except String (α × Nat)} {n pos last : Nat}
    {xs : List α} (h : repeated item n pos = .ok (xs, last)) :
    xs.length = n ∧ ∀ x ∈ xs, ∃ p p', item p = .ok (x, p') := by
  induction n generalizing pos xs last with
  | zero =>
      cases h
      exact ⟨rfl, fun x hx => absurd hx List.not_mem_nil⟩
  | succ n ih =>
      simp only [repeated, bind_eq_ok_iff] at h
      obtain ⟨⟨y, p⟩, hitem, ⟨ys, p'⟩, hrest, hret⟩ := h
      cases hret
      obtain ⟨hlen, hmem⟩ := ih hrest
      refine ⟨congrArg Nat.succ hlen, fun x hx => ?_⟩
      rcases List.mem_cons.mp hx with rfl | hx
      · exact ⟨pos, p, hitem⟩
      · exact hmem x hx

/-- Every name of the message satisfies `p`. -/
structure NamesAre (p : Str → Prop) (m : Message) : Prop where
  questions : ∀ question ∈ m.questions, p question.name
  answers : ∀ rr ∈ m.answers, p rr.name
  authority : ∀ rr ∈ m.authority, p rr.name
  additional : ∀ rr ∈ m.additional, p rr.name

/-- A parsed section has as many records as the header says, all of them fit. -/
theorem records_fit {data : Bytes} {n pos last : Nat} {rrs : List RR}
    (h : repeated (parseRecord data) n pos = .ok (rrs, last)) (t : DigitTables) :
    rrs.length = n ∧ (∀ rr ∈ rrs, RecordFits t rr) ∧ ∀ rr ∈ rrs, Spelled rr.name := by
  obtain ⟨hlen, hmem⟩ := repeated_eq_ok h
  refine ⟨hlen, fun rr hrr => ?_, fun rr hrr => ?_⟩
  · obtain ⟨p, p', hitem⟩ := hmem rr hrr
    exact (parseRecord_fits hitem t).1
  · obtain ⟨p, p', hitem⟩ := hmem rr hrr
    exact (parseRecord_fits hitem t).2

/-- An accepted message fits on the wire, its names in canonical spelling. -/
theorem parse_fits {data : Bytes} {m : Message} (h : parse data = .ok m) (t : DigitTables) :
    Fits t m ∧ NamesAre Spelled m := by
  unfold parse at h
  split at h
  · cases h
  · dsimp only at h
    split at h
    · cases h
    · simp only [bind_eq_ok_iff] at h
      obtain ⟨⟨qs, p₁⟩, hqs, ⟨as, p₂⟩, has, ⟨ns, p₃⟩, hns, ⟨ar, p₄⟩, har, hret⟩ := h
      cases hret
      obtain ⟨hqlen, hqmem⟩ := repeated_eq_ok hqs
      obtain ⟨hanlen, hanfit, hanname⟩ := records_fit has t
      obtain ⟨hnslen, hnsfit, hnsname⟩ := records_fit hns t
      obtain ⟨harlen, harfit, harname⟩ := records_fit har t
      have hqfit : ∀ q ∈ qs, QuestionFits t q ∧ Spelled q.name := by
        intro q hq
        obtain ⟨p, p', hitem⟩ := hqmem q hq
        exact parseQuestion_fits hitem t
      refine ⟨⟨unpack_lt _ _ _, unpack_lt _ _ _, ?_, ?_, ?_, ?_, fun q hq => (hqfit q hq).1,
        hanfit, hnsfit, harfit⟩, fun q hq => (hqfit q hq).2, hanname, hnsname, harname⟩
      · exact hqlen ▸ unpack_lt _ _ _
      · exact hanlen ▸ unpack_lt _ _ _
      · exact hnslen ▸ unpack_lt _ _ _
      · exact harlen ▸ unpack_lt _ _ _

theorem forall₂_imp_of_mem {α : Type} {r r' : α → α → Prop} {xs ys : List α}
    (h : List.Forall₂ r xs ys) (himp : ∀ x ∈ xs, ∀ y, r x y → r' x y) :
    List.Forall₂ r' xs ys := by
  induction h with
  | nil => exact .nil
  | cons hxy _ ih =>
      exact .cons (himp _ List.mem_cons_self _ hxy)
        (ih fun x hx => himp x (List.mem_cons_of_mem _ hx))

/-- Canonically spelled names come back equal up to ASCII case. -/
theorem SameMessage.sameText {t : DigitTables} {m m' : Message}
    (h : SameMessage (SameLabels t) m m') (hnames : NamesAre Spelled m) :
    SameMessage SameText m m' where
  id := h.id
  flags := h.flags
  questions := forall₂_imp_of_mem h.questions fun q hq _ hsame =>
    ⟨hsame.name.sameText (hnames.questions q hq), hsame.qtype, hsame.qclass⟩
  answers := forall₂_imp_of_mem h.answers fun rr hrr _ hsame =>
    ⟨hsame.name.sameText (hnames.answers rr hrr), hsame.rtype, hsame.rclass, hsame.ttl,
      hsame.rdata⟩
  authority := forall₂_imp_of_mem h.authority fun rr hrr _ hsame =>
    ⟨hsame.name.sameText (hnames.authority rr hrr), hsame.rtype, hsame.rclass, hsame.ttl,
      hsame.rdata⟩
  additional := forall₂_imp_of_mem h.additional fun rr hrr _ hsame =>
    ⟨hsame.name.sameText (hnames.additional rr hrr), hsame.rtype, hsame.rclass, hsame.ttl,
      hsame.rdata⟩

/-- What `parse` accepts comes back from its encoding with every name equal up to ASCII case; a
message that fits on the wire comes back with the labels of every name equal up to ASCII case, in
canonical spelling. -/
theorem parse_encode (t : DigitTables) :
    (∀ data m, parse data = .ok m →
      ∃ wire m', encode t m = .ok wire ∧ parse wire = .ok m' ∧ SameMessage SameText m m') ∧
    (∀ m, Fits t m →
      ∃ wire m', encode t m = .ok wire ∧ parse wire = .ok m' ∧
        SameMessage (SameLabels t) m m' ∧
        (NamesAre Spelled m → SameMessage SameText m m')) := by
  constructor
  · intro data m hparse
    obtain ⟨hfits, hnames⟩ := parse_fits hparse t
    obtain ⟨wire, m', hencode, hback, hsame⟩ := parse_encode_of_fits hfits
    exact ⟨wire, m', hencode, hback, hsame.sameText hnames⟩
  · intro m hfits
    obtain ⟨wire, m', hencode, hback, hsame⟩ := parse_encode_of_fits hfits
    exact ⟨wire, m', hencode, hback, hsame, hsame.sameText⟩

/-- A reply whose answer is compressed against the question, in its owner and in its rdata. -/
def reply : Bytes :=
  [0, 7, 0x81, 0x80, 0, 1, 0, 1, 0, 0, 0, 0] ++ [1, 97, 2, 98, 46, 0, 0, 5, 0, 1] ++
    [1, 99, 0xC0, 14, 0, 5, 0, 1, 0, 0, 0, 60, 0, 2, 0xC0, 12]

def replyMessage : Message where
  id := 7
  flags := 0x8180
  questions := [⟨['a', '.', 'b', '\\', '.', '.'], 5, 1⟩]
  answers := [⟨['c', '.', 'b', '\\', '.', '.'], 5, 1, 60, [1, 97, 2, 98, 46, 0]⟩]
  authority := []
  additional := []

/-- A question for a name without its trailing dot. -/
def relative : Message := ⟨0, 0, [⟨['a'], 1, 1⟩], [], [], []⟩

theorem relative_fits : Fits asciiDigits relative where
  id := by decide
  flags := by decide
  qdcount := by decide
  ancount := by decide
  nscount := by decide
  arcount := by decide
  questions question hq := by
    rw [List.mem_singleton.mp hq]
    exact ⟨⟨[[97]], by decide⟩, by decide, by decide⟩
  answers _ hrr := absurd hrr List.not_mem_nil
  authority _ hrr := absurd hrr List.not_mem_nil
  additional _ hrr := absurd hrr List.not_mem_nil

theorem parse_encode_reply :
    (parse reply = .ok replyMessage ∧ ∃ wire m', encode asciiDigits replyMessage = .ok wire ∧
      parse wire = .ok m' ∧ SameMessage SameText replyMessage m') ∧
    Fits asciiDigits relative ∧ ∃ wire m', encode asciiDigits relative = .ok wire ∧
      parse wire = .ok m' ∧ SameMessage (SameLabels asciiDigits) relative m' ∧
      (NamesAre Spelled relative → SameMessage SameText relative m') := by
  have hreply : parse reply = .ok replyMessage := by decide +kernel
  exact ⟨⟨hreply, (parse_encode asciiDigits).1 reply replyMessage hreply⟩, relative_fits,
    (parse_encode asciiDigits).2 relative relative_fits⟩

/-- The relative spelling `a` comes back as `a.`, which no change of case makes equal. -/
theorem relative_respelled : Fits asciiDigits relative ∧
    ¬ ∃ wire m', encode asciiDigits relative = .ok wire ∧ parse wire = .ok m' ∧
      SameMessage SameText relative m' := by
  refine ⟨relative_fits, ?_⟩
  rintro ⟨wire, m', hencode, hparse, hsame⟩
  obtain ⟨wire₂, m₂, hencode₂, hparse₂, hsame₂⟩ := parse_encode_of_fits relative_fits
  rw [hencode] at hencode₂
  cases hencode₂
  rw [hparse] at hparse₂
  cases hparse₂
  obtain ⟨q, _, hq, -, hquestions⟩ := List.forall₂_cons_left_iff.mp hsame.questions
  obtain ⟨q₂, _, hq₂, -, hquestions₂⟩ := List.forall₂_cons_left_iff.mp hsame₂.questions
  rw [hquestions] at hquestions₂
  cases hquestions₂
  obtain ⟨labels, labels', hlabels, -, hlower, htext⟩ := hq₂.name
  have ha : nameToLabels asciiDigits ['a'] = .ok [[97]] := by decide
  rw [ha] at hlabels
  cases hlabels
  have hname := hq.name
  rw [SameText, htext, labelsToText_lower, ← hlower] at hname
  exact absurd hname (by decide)

end PfBlockerNG.DnsWireRoundTrip
