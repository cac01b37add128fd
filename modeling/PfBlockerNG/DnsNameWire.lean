import PfBlockerNG.DnsWire

/-!
Names on the wire: what stands at an offset, that `_read_labels` reads it, and that `put_name`
writes it.
-/

namespace PfBlockerNG.DnsNameWire

open PfBlockerNG.ByteStrings
open PfBlockerNG.DnsNames
open PfBlockerNG.DnsWire

/-- The two octets of a compression pointer. -/
def pointerOctets (offset : Nat) : Bytes := toOctets 2 (0xC000 + offset)

/-- The name `labels` stands at `pos`, reached through `hops` pointers; its octets in the stream
end at `stop`. -/
inductive NameAt (data : Bytes) : Nat → List Label → Nat → Nat → Prop
  | root {pos : Nat} : At data pos [0] → NameAt data pos [] 0 (pos + 1)
  | label {pos : Nat} {label : Label} {labels : List Label} {hops stop : Nat} :
      0 < label.length → label.length ≤ maxLabel →
      At data pos (UInt8.ofNat label.length :: label) →
      NameAt data (pos + 1 + label.length) labels hops stop →
      NameAt data pos (label :: labels) hops stop
  | pointer {pos offset : Nat} {labels : List Label} {hops stop : Nat} :
      offset < 0x4000 → offset < pos → At data pos (pointerOctets offset) →
      NameAt data offset labels hops stop →
      NameAt data pos labels (hops + 1) (pos + 2)

theorem NameAt.mono {data data' : Bytes} {pos : Nat} {labels : List Label} {hops stop : Nat}
    (h : NameAt data pos labels hops stop) (hext : data <+: data') :
    NameAt data' pos labels hops stop := by
  induction h with
  | root hat => exact .root (hat.mono hext)
  | label hpos hshort hat _ ih => exact .label hpos hshort (hat.mono hext) ih
  | pointer hoffset hback hat _ ih => exact .pointer hoffset hback (hat.mono hext) ih

theorem NameAt.lt_length {data : Bytes} {pos : Nat} {labels : List Label} {hops stop : Nat}
    (h : NameAt data pos labels hops stop) : pos < data.length := by
  cases h with
  | root hat =>
      have hle := hat.le_length (List.cons_ne_nil _ _)
      simp only [List.length_singleton] at hle
      omega
  | label hpos hshort hat hrest =>
      have hle := hat.le_length (List.cons_ne_nil _ _)
      rw [List.length_cons] at hle
      omega
  | @pointer _ offset _ _ _ hoffset hback hat hrest =>
      have hlen : (pointerOctets offset).length = 2 := toOctets_length 2 _
      have hle := hat.le_length (List.ne_nil_of_length_pos (by rw [hlen]; omega))
      rw [hlen] at hle
      omega

/-! ### Octets of the length byte -/

set_option maxRecDepth 4000 in
theorem high_bits : ∀ n < 256,
    (n &&& 0xC0 = 0xC0 ↔ 192 ≤ n) ∧ (n &&& 0xC0 = 0 ↔ n < 64) := by
  decide

theorem or_pointer {offset : Nat} (h : offset < 0x4000) : 0xC000 ||| offset = 0xC000 + offset := by
  have hor := Nat.two_pow_add_eq_or_of_lt (i := 14) (b := offset) h 3
  exact hor.symm

theorem pointerOctets_eq (offset : Nat) : pointerOctets offset =
    [UInt8.ofNat ((0xC000 + offset) / 256 % 256), UInt8.ofNat ((0xC000 + offset) % 256)] := rfl

theorem target_eq {offset : Nat} (h : offset < 0x4000) :
    (((0xC000 + offset) / 256 % 256 &&& 0x3F) <<< 8) ||| ((0xC000 + offset) % 256) = offset := by
  have hmask : (0xC000 + offset) / 256 % 256 &&& 0x3F = offset / 256 := by
    have hand := Nat.and_two_pow_sub_one_eq_mod ((0xC000 + offset) / 256 % 256) 6
    rw [show 2 ^ 6 - 1 = 0x3F from rfl] at hand
    rw [hand]
    omega
  have hlow : (0xC000 + offset) % 256 < 2 ^ 8 := by omega
  rw [hmask, ← Nat.shiftLeft_add_eq_or_of_lt hlow, Nat.shiftLeft_eq]
  omega

/-! ### Reading -/

/-- `_read_labels` reads the name that stands at an offset. -/
theorem readLabels_of_nameAt {data : Bytes} {pos : Nat} {labels : List Label} {hops last : Nat}
    (h : NameAt data pos labels hops last) (before : List Label) (wireLen : Nat)
    (stop : Option Nat) (done : Nat) (hlen : wireLen + wireLength labels ≤ maxName + 1)
    (hhops : done + hops ≤ maxHops) :
    readLabels data pos before wireLen stop done = .ok (before ++ labels, stop.getD last) := by
  induction h generalizing before wireLen stop done with
  | root hat =>
      rw [readLabels, hat.getElem?_head]
      simp
  | @label pos label labels hops last hpos hshort hat hrest ih =>
      have hle := hat.le_length (List.cons_ne_nil _ _)
      have hrest' : At data (pos + [UInt8.ofNat label.length].length) label := hat.append_right
      have htext : (data.drop (pos + 1)).take label.length = label := hrest'.take
      have hshort' : label.length ≤ 63 := hshort
      have hoctet : (UInt8.ofNat label.length).toNat = label.length := by
        simp only [UInt8.toNat_ofNat']
        omega
      have hbits := high_bits label.length (by omega)
      have hlow : label.length &&& 0xC0 = 0 := hbits.2.mpr (by omega)
      rw [wireLength_cons] at hlen
      have hwire := wireLength_pos labels
      have hfits : ¬ maxName < wireLen + (1 + label.length) := by omega
      rw [List.length_cons] at hle
      have hinside : ¬ data.length < pos + 1 + label.length := by omega
      have hnext := ih (before ++ [label]) (wireLen + (1 + label.length)) stop done (by omega) hhops
      rw [readLabels, hat.getElem?_head]
      simp only [hoctet, hlow, htext, hnext, hfits, hinside, List.append_assoc,
        List.singleton_append, if_false, dif_neg, not_false_iff, ne_eq, not_true_eq_false,
        Nat.ne_of_gt hpos, OfNat.zero_ne_ofNat]
  | @pointer pos offset labels hops last hoffset hback hat hrest ih =>
      rw [pointerOctets_eq] at hat
      have hhead := hat.getElem?_head
      have hsecond : At data (pos + [UInt8.ofNat ((0xC000 + offset) / 256 % 256)].length)
          [UInt8.ofNat ((0xC000 + offset) % 256)] := hat.append_right
      have hlow := hsecond.getElem?_head
      have hhigh : (0xC000 + offset) / 256 % 256 &&& 0xC0 = 0xC0 :=
        (high_bits _ (by omega)).1.mpr (by omega)
      have hne : (0xC000 + offset) / 256 % 256 ≠ 0 := by omega
      have hnext := ih before wireLen (some (stop.getD (pos + 2))) (done + 1) hlen (by omega)
      have hfew : ¬ maxHops < done + 1 := by omega
      rw [readLabels, hhead]
      rw [List.length_singleton] at hlow
      simp only [hlow, UInt8.toNat_ofNat', Nat.mod_mod, Nat.reducePow, hne, hhigh,
        target_eq hoffset, if_false, if_true, Nat.not_le.mpr hback, hfew, dif_neg,
        not_false_iff]
      exact hnext

theorem readName_of_nameAt {data : Bytes} {pos : Nat} {labels : List Label} {hops last : Nat}
    (h : NameAt data pos labels hops last) (hfits : wireLength labels ≤ maxName)
    (hhops : hops ≤ maxHops) : readName data pos = .ok (labels, last) := by
  have hread := readLabels_of_nameAt h [] 1 none 0 (by omega) (by omega)
  rwa [List.nil_append] at hread

/-- What `_read_labels` returns fits on the wire. -/
theorem readLabels_valid {data : Bytes} {cur : Nat} {before : List Label} {wireLen : Nat}
    {stop : Option Nat} {hops : Nat} {labels : List Label} {last : Nat}
    (h : readLabels data cur before wireLen stop hops = .ok (labels, last))
    (hbefore : ValidLabels before) (hlen : wireLen = wireLength before) : ValidLabels labels := by
  fun_induction readLabels data cur before wireLen stop hops with
  | case1 => cases h
  | case2 =>
      cases h
      exact hbefore
  | case3 => cases h
  | case4 => cases h
  | case5 => cases h
  | case6 => next ih => exact ih h hbefore hlen
  | case7 => cases h
  | case8 => cases h
  | case9 => cases h
  | case10 cur before wireLen stop hops head hhead octet hzero _ hlow hinside hfits ih =>
      have hlt : octet < 256 := head.toNat_lt
      have hsmall : octet < 64 := (high_bits _ hlt).2.mp (by simpa using hlow)
      have hlabel : ((data.drop (cur + 1)).take octet).length = octet := by
        rw [List.length_take, List.length_drop]
        omega
      have hshort : octet ≤ maxLabel := by
        simp only [maxLabel]
        omega
      have hpush : ValidLabels (before ++ [(data.drop (cur + 1)).take octet]) :=
        hbefore.push (by omega) (by omega) (by omega)
      refine ih h hpush ?_
      rw [wireLength_push, hlabel, hlen]

theorem readName_valid {data : Bytes} {pos : Nat} {labels : List Label} {last : Nat}
    (h : readName data pos = .ok (labels, last)) : ValidLabels labels :=
  readLabels_valid h validLabels_nil rfl

/-! ### Writing -/

/-- The entry of a suffix stands complete in the output, where a pointer reaches it. -/
def Complete (out : Bytes) (entry : List Label × Nat) : Prop :=
  entry.2 < 0x4000 ∧ ∃ labels hops last, labels.map lower = entry.1 ∧
    NameAt out entry.2 labels hops last ∧ hops + 1 ≤ labels.length

theorem Complete.mono {out out' : Bytes} {entry : List Label × Nat} (h : Complete out entry)
    (hext : out <+: out') : Complete out' entry := by
  obtain ⟨hlow, labels, hops, last, hlower, hat, hhops⟩ := h
  exact ⟨hlow, labels, hops, last, hlower, hat.mono hext, hhops⟩

/-- Every suffix the writer remembers is complete. -/
def Sound (w : Writer) : Prop := ∀ entry ∈ w.seen, Complete w.out entry

/-- What writing a name leaves behind: the name up to case, at the offset it began at. -/
structure Written (labels : List Label) (w w' : Writer) : Prop where
  extended : w.out <+: w'.out
  name : ∃ found hops, found.map lower = labels.map lower ∧ hops ≤ found.length ∧
    NameAt w'.out w.out.length found hops w'.out.length

theorem pack_pointer {offset : Nat} (h : offset < 0x4000) :
    pack 2 (0xC000 ||| offset) = .ok (pointerOctets offset) := by
  have hlt : 0xC000 + offset < 256 ^ 2 := by omega
  rw [or_pointer h, pack, if_pos hlt, pointerOctets]

/-- A suffix found among the entries is replaced by a pointer to it. -/
theorem written_pointer {labels : List Label} {w : Writer} {offset : Nat}
    (h : Complete w.out (labels.map lower, offset)) :
    Written labels w (w.extend (pointerOctets offset)) := by
  obtain ⟨hlow, found, hops, last, hlower, hat, hhops⟩ := h
  refine ⟨w.extend_begins _, found, hops + 1, hlower, hhops, ?_⟩
  have hback := hat.lt_length
  have hpointer := w.extend_at (pointerOctets offset)
  have hname := NameAt.pointer hlow hback hpointer (hat.mono (w.extend_begins _))
  rwa [Writer.extend_length]

/-- A label written out stands before the rest of its name. -/
theorem written_label {label : Label} {labels : List Label} {w w' : Writer} {suffix : List Label}
    (hpos : 0 < label.length) (hshort : label.length ≤ maxLabel)
    (h : Written labels ((w.note suffix).extend (UInt8.ofNat label.length :: label)) w') :
    w.out <+: w'.out ∧ ∃ found hops, found.map lower = labels.map lower ∧
      hops ≤ found.length ∧ NameAt w'.out w.out.length (label :: found) hops w'.out.length := by
  obtain ⟨hext, found, hops, hlower, hhops, hat⟩ := h
  have hbegins := (w.note suffix).extend_begins (UInt8.ofNat label.length :: label)
  have hlabel := ((w.note suffix).extend_at (UInt8.ofNat label.length :: label)).mono hext
  rw [Writer.note_out] at hbegins hlabel
  rw [Writer.extend_length, Writer.note_out, List.length_cons, Nat.add_comm label.length,
    ← Nat.add_assoc] at hat
  exact ⟨hbegins.trans hext, found, hops, hlower, hhops, .label hpos hshort hlabel hat⟩

/-- `put_name` writes its labels up to case; an entry not yet complete when it starts belongs to
a longer suffix, which the loop never looks up. -/
theorem putLabels_spec {labels : List Label} (hpos : ∀ label ∈ labels, 0 < label.length)
    (hshort : ∀ label ∈ labels, label.length ≤ maxLabel) (w : Writer)
    (h : ∀ entry ∈ w.seen, Complete w.out entry ∨ labels.length < entry.1.length) :
    ∃ w', putLabels labels w = .ok w' ∧ Written labels w w' ∧
      ∀ entry ∈ w'.seen, Complete w'.out entry ∨ entry ∈ w.seen := by
  induction labels generalizing w with
  | nil =>
      refine ⟨w.extend [0], rfl, ⟨w.extend_begins _, [], 0, rfl, Nat.le_refl 0, ?_⟩, ?_⟩
      · rw [Writer.extend_length]
        exact .root (w.extend_at [0])
      · intro entry hentry
        exact Or.inr hentry
  | cons label labels ih =>
      cases hlookup : w.seen.lookup ((label :: labels).map lower) with
      | some offset =>
          obtain ⟨l₁, l₂, hsplit, _⟩ := List.lookup_eq_some_iff.mp hlookup
          have hmem : ((label :: labels).map lower, offset) ∈ w.seen := by
            rw [hsplit]
            exact List.mem_append_right _ List.mem_cons_self
          have hcomplete : Complete w.out ((label :: labels).map lower, offset) := by
            rcases h _ hmem with hc | hlong
            · exact hc
            · rw [List.length_map] at hlong
              exact absurd hlong (Nat.lt_irrefl _)
          refine ⟨w.extend (pointerOctets offset), ?_, written_pointer hcomplete, ?_⟩
          · rw [putLabels, hlookup]
            simp only [pack_pointer hcomplete.1]
            rfl
          · intro entry hentry
            exact Or.inr hentry
      | none =>
          have hstart : ∀ entry ∈ ((w.note ((label :: labels).map lower)).extend
              (UInt8.ofNat label.length :: label)).seen,
              Complete ((w.note ((label :: labels).map lower)).extend
                (UInt8.ofNat label.length :: label)).out entry ∨
              labels.length < entry.1.length := by
            intro entry hentry
            rw [Writer.extend_seen] at hentry
            rcases Writer.mem_note hentry with hold | ⟨rfl, -⟩
            · rcases h entry hold with hc | hlong
              · refine Or.inl (hc.mono ?_)
                have hbegins := (w.note ((label :: labels).map lower)).extend_begins
                  (UInt8.ofNat label.length :: label)
                rwa [Writer.note_out] at hbegins
              · rw [List.length_cons] at hlong
                exact Or.inr (by omega)
            · exact Or.inr (by simp)
          obtain ⟨w', hput, hwritten, hseen⟩ :=
            ih (fun l hl => hpos l (List.mem_cons_of_mem _ hl))
              (fun l hl => hshort l (List.mem_cons_of_mem _ hl)) _ hstart
          obtain ⟨hext, found, hops, hlower, hhops, hat⟩ :=
            written_label (hpos label List.mem_cons_self) (hshort label List.mem_cons_self)
              hwritten
          have hfold : (label :: found).map lower = (label :: labels).map lower := by
            rw [List.map_cons, List.map_cons, hlower]
          refine ⟨w', ?_, ⟨hext, label :: found, hops, hfold, Nat.le_succ_of_le hhops, hat⟩, ?_⟩
          · rw [putLabels, hlookup]
            exact hput
          · intro entry hentry
            rcases hseen entry hentry with hc | hold
            · exact Or.inl hc
            · rw [Writer.extend_seen] at hold
              rcases Writer.mem_note hold with hold | ⟨rfl, hlow⟩
              · exact Or.inr hold
              · exact Or.inl ⟨hlow, label :: found, hops, _, hfold, hat,
                  Nat.succ_le_succ hhops⟩

/-- Labels that fit on the wire are written, and the writer stays sound. -/
theorem putLabels_sound {labels : List Label} (hvalid : ValidLabels labels) {w : Writer}
    (hsound : Sound w) :
    ∃ w', putLabels labels w = .ok w' ∧ Written labels w w' ∧ Sound w' := by
  obtain ⟨w', hput, hwritten, hseen⟩ := putLabels_spec hvalid.nonempty hvalid.short w
    (fun entry hentry => Or.inl (hsound entry hentry))
  refine ⟨w', hput, hwritten, fun entry hentry => ?_⟩
  rcases hseen entry hentry with hc | hold
  · exact hc
  · exact (hsound entry hold).mono hwritten.extended

/-- What was written is read back up to case, whatever follows it. -/
theorem Written.readName {labels : List Label} {w w' : Writer} (h : Written labels w w')
    (hvalid : ValidLabels labels) : ∃ found, found.map lower = labels.map lower ∧
      ∀ data, w'.out <+: data →
        readName data w.out.length = .ok (found, w'.out.length) := by
  obtain ⟨-, found, hops, hlower, hhops, hat⟩ := h
  have hlen : found.length = labels.length := by
    have hmap := congrArg List.length hlower
    rwa [List.length_map, List.length_map] at hmap
  have hfits := hvalid.fits
  have hfew := hvalid.two_mul_length_lt
  refine ⟨found, hlower, fun data hext => readName_of_nameAt (hat.mono hext) ?_ ?_⟩
  · rw [wireLength_of_lower_eq hlower]
    exact hfits
  · simp only [maxHops, maxName] at *
    omega

theorem Written.lt_length {labels : List Label} {w w' : Writer} (h : Written labels w w') :
    w.out.length < w'.out.length := by
  obtain ⟨-, found, hops, -, -, hat⟩ := h
  exact hat.lt_length

/-- An uncompressed name is a name that stands without pointers. -/
theorem nameAt_uncompressed {data : Bytes} {labels : List Label}
    (hpos : ∀ label ∈ labels, 0 < label.length)
    (hshort : ∀ label ∈ labels, label.length ≤ maxLabel) (pos : Nat)
    (h : At data pos (uncompressed labels)) :
    NameAt data pos labels 0 (pos + wireLength labels) := by
  induction labels generalizing pos with
  | nil => exact .root h
  | cons label labels ih =>
      rw [uncompressed_cons] at h
      have hrest := h.append_right
      rw [List.length_cons, Nat.add_comm label.length, ← Nat.add_assoc] at hrest
      have hname := ih (fun l hl => hpos l (List.mem_cons_of_mem _ hl))
        (fun l hl => hshort l (List.mem_cons_of_mem _ hl)) _ hrest
      have hstop : pos + 1 + label.length + wireLength labels =
          pos + wireLength (label :: labels) := by
        rw [wireLength_cons]
        omega
      rw [hstop] at hname
      exact .label (hpos label List.mem_cons_self) (hshort label List.mem_cons_self)
        h.append_left hname

end PfBlockerNG.DnsNameWire
