/-
# DNS responses

The messages of RFC 1035 as bytes, and what `process_udp` finds in a response: the address of the
first `A` record, when no owner name up to it has labels before a pointer.  The loop over an owner
name takes the first byte of a pointer behind labels for the length of a label, where the loop over
the name of the question knows it.
-/
import Microkernel.NetFields

namespace Microkernel

open Access ByteNumbers

/-! ## Safety -/

/-- **The DNS part is safe.**  For every payload from port 53, of any length and contents, the DNS
part of `process_udp` ends and reads only bytes of the payload. -/
theorem dns_part_inside (n : Net) (payload : Buffer) (srcIp : IpAddr) (dport : ℕ) :
    Inside (n.deliverUdp payload srcIp dnsPort dport 0 payload.size) := by
  apply Net.inside_deliverUdp.mpr
  intro _
  right
  omega

/-! ## Messages -/

/-- A name in a message: labels, and behind them the zero byte or a pointer. -/
structure DnsName where
  labels : List (List UInt8)
  pointer : Option (Fin 0x4000)
  length_label : ∀ l ∈ labels, 1 ≤ l.length ∧ l.length ≤ 63

/-- A resource record. -/
structure DnsRecord where
  owner : DnsName
  rtype : UInt16
  rclass : UInt16
  ttl : Vector UInt8 4
  rdata : List UInt8
  length_rdata : rdata.length < 2 ^ 16

/-- A response with one question. -/
structure DnsResponse where
  id : UInt16
  flags : UInt16
  qname : DnsName
  qtype : UInt16
  qclass : UInt16
  answers : List DnsRecord
  authority : List DnsRecord
  additional : List DnsRecord
  isResponse : flags.toNat &&& dnsFlagQr ≠ 0
  length_answers : answers.length < 2 ^ 16

/-- The labels of a name, each behind its length. -/
def encodeLabels (labels : List (List UInt8)) : List UInt8 :=
  labels.flatMap fun l => UInt8.ofNat l.length :: l

namespace DnsName

variable (d : DnsName)

/-- What is behind the labels. -/
def ending : List UInt8 :=
  match d.pointer with
  | none => [0]
  | some p => be16 (0xC000 + p)

/-- The bytes of a name. -/
def encode : List UInt8 := encodeLabels d.labels ++ d.ending

/-- The name is labels or a pointer, not both. -/
def Plain : Prop := d.labels = [] ∨ d.pointer = none

instance : Decidable d.Plain := inferInstanceAs (Decidable (_ ∨ _))

end DnsName

namespace DnsRecord

variable (r : DnsRecord)

/-- The type, the class, the time to live and the length of the data. -/
def fixedPart : List UInt8 :=
  be16 r.rtype.toNat ++ (be16 r.rclass.toNat ++ r.ttl.toList) ++ be16 r.rdata.length

/-- The bytes of a record. -/
def encode : List UInt8 := r.owner.encode ++ (r.fixedPart ++ r.rdata)

/-- The address in an `A` record. -/
def address : Option IpAddr :=
  if h : r.rtype.toNat = dnsTypeA ∧ r.rdata.length = 4 then some ⟨r.rdata.toArray, h.2⟩ else none

end DnsRecord

namespace DnsResponse

variable (r : DnsResponse)

/-- The header. -/
def header : List UInt8 :=
  be16 r.id.toNat ++ (be16 r.flags.toNat ++ (be16 1 ++ (be16 r.answers.length ++
    (be16 r.authority.length ++ be16 r.additional.length))))

/-- The question. -/
def question : List UInt8 := r.qname.encode ++ (be16 r.qtype.toNat ++ be16 r.qclass.toNat)

/-- The bytes of a response. -/
def encode : List UInt8 :=
  r.header ++ (r.question ++ (r.answers.flatMap DnsRecord.encode ++
    (r.authority.flatMap DnsRecord.encode ++ r.additional.flatMap DnsRecord.encode)))

/-- The address of the first `A` record among the answers. -/
def firstAddress : Option IpAddr := r.answers.findSome? DnsRecord.address

end DnsResponse

/-- No owner name up to the first `A` record has labels before a pointer. -/
def PlainUpToAddress : List DnsRecord → Prop
  | [] => True
  | r :: rs => r.owner.Plain ∧ (r.address = none → PlainUpToAddress rs)

/-- An owner name up to the first `A` record has labels before a pointer, and what is taken there
for a label ends behind the message; `size` is the size of the message, `p` the place of the first
record. -/
def StraysBehind (size : ℕ) : ℕ → List DnsRecord → Prop
  | _, [] => False
  | p, r :: rs =>
    if r.owner.Plain then r.address = none ∧ StraysBehind size (p + r.encode.length) rs
    else ∀ c ∈ r.owner.ending.head?, size < p + (encodeLabels r.owner.labels).length + c.toNat + 12

/-! ## Names -/

variable {b : Buffer} {p k : ℕ} {labels : List (List UInt8)}

@[simp] theorem encodeLabels_nil : encodeLabels [] = [] := rfl

@[simp] theorem encodeLabels_cons (l : List UInt8) (ls : List (List UInt8)) :
    encodeLabels (l :: ls) = UInt8.ofNat l.length :: (l ++ encodeLabels ls) := by
  unfold encodeLabels
  rw [List.flatMap_cons, List.cons_append]

/-- The first label. -/
theorem holds_labels_cons {l : List UInt8} (hl : l.length ≤ 63)
    (h : b.Holds p (encodeLabels (l :: labels))) :
    p < b.size ∧ b.load p 1 = .ok l.length ∧ b.Holds (p + l.length + 1) (encodeLabels labels) := by
  rw [encodeLabels_cons] at h
  have hload := b.load_of_holds h
  rw [UInt8.toNat_ofNat', Nat.mod_eq_of_lt (by omega)] at hload
  have hle := h.1
  rw [← List.cons_append] at h
  have hrest := (b.holds_append.mp h).2
  rw [List.length_cons] at hle hrest
  exact ⟨by omega, hload, hrest⟩

theorem length_encodeLabels_cons (l : List UInt8) :
    (encodeLabels (l :: labels)).length = l.length + 1 + (encodeLabels labels).length := by
  rw [encodeLabels_cons, List.length_cons, List.length_append]
  omega

theorem length_le_encodeLabels (labels : List (List UInt8)) :
    labels.length ≤ (encodeLabels labels).length := by
  induction labels with
  | nil => exact le_rfl
  | cons l ls ih =>
    rw [length_encodeLabels_cons, List.length_cons]
    omega

theorem isPointer_of_le {c : ℕ} (hc : c ≤ 63) : isPointer c = false := by
  have hall : ∀ c < 64, isPointer c = false := by decide
  exact hall c (by omega)

theorem isPointer_add {c : ℕ} (hc : c < 64) : isPointer (0xC0 + c) = true := by
  have hall : ∀ c < 64, isPointer (0xC0 + c) = true := by decide
  exact hall c hc

/-- The loop over the name of an answer goes over whole labels. -/
theorem skipLabels_labels (hl : ∀ l ∈ labels, 1 ≤ l.length ∧ l.length ≤ 63)
    (h : b.Holds p (encodeLabels labels)) :
    skipLabels b (k + labels.length) p = skipLabels b k (p + (encodeLabels labels).length) := by
  induction labels generalizing p with
  | nil => rfl
  | cons l ls ih =>
    obtain ⟨hpos, hle⟩ := hl l List.mem_cons_self
    obtain ⟨hp, hload, hrest⟩ := holds_labels_cons hle h
    rw [List.length_cons, ← Nat.add_assoc, skipLabels, if_pos hp, hload, ok_bind, if_neg (by omega),
      ih (fun x hx => hl x (List.mem_cons_of_mem _ hx)) hrest, length_encodeLabels_cons]
    congr 1
    omega

/-- And so does the loop over the name of the question. -/
theorem skipQuestion_labels (hl : ∀ l ∈ labels, 1 ≤ l.length ∧ l.length ≤ 63)
    (h : b.Holds p (encodeLabels labels)) :
    skipQuestion b (k + labels.length) p = skipQuestion b k (p + (encodeLabels labels).length) := by
  induction labels generalizing p with
  | nil => rfl
  | cons l ls ih =>
    obtain ⟨hpos, hle⟩ := hl l List.mem_cons_self
    obtain ⟨hp, hload, hrest⟩ := holds_labels_cons hle h
    rw [List.length_cons, ← Nat.add_assoc, skipQuestion, if_pos hp, hload, ok_bind,
      if_neg (by omega), isPointer_of_le hle, if_neg Bool.false_ne_true,
      ih (fun x hx => hl x (List.mem_cons_of_mem _ hx)) hrest, length_encodeLabels_cons]
    congr 1
    omega

/-- The first byte of a pointer. -/
theorem load_pointer {q : Fin 0x4000} (h : b.Holds p (be16 (0xC000 + q))) :
    p + 2 ≤ b.size ∧ b.load p 1 = .ok (0xC0 + q / 256) := by
  have hload := b.load_of_holds h
  have hq := q.isLt
  rw [UInt8.toNat_ofNat', Nat.mod_eq_of_lt (by omega)] at hload
  have hdiv : (0xC000 + (q : ℕ)) / 256 = 0xC0 + q / 256 := by omega
  rw [hdiv] at hload
  exact ⟨h.1, hload⟩

/-- The zero byte behind labels. -/
theorem load_zero (h : b.Holds p [0]) : p < b.size ∧ b.load p 1 = .ok 0 := by
  have hle := h.1
  rw [List.length_singleton] at hle
  exact ⟨by omega, b.load_of_holds h⟩

/-- **The name of the question is skipped**, in every form. -/
theorem skipQuestion_encode {d : DnsName} (h : b.Holds p d.encode) :
    skipQuestion b (b.size + 1) p = .ok (p + d.encode.length + 4) := by
  have hle := h.1
  unfold DnsName.encode at h hle ⊢
  obtain ⟨hlabels, hending⟩ := b.holds_append.mp h
  have hcount := length_le_encodeLabels d.labels
  rw [List.length_append] at hle ⊢
  -- as many rounds as labels, and one more
  have hfuel : b.size + 1 = b.size - d.labels.length + 1 + d.labels.length := by omega
  rw [hfuel, skipQuestion_labels d.length_label hlabels, skipQuestion]
  unfold DnsName.ending at hending ⊢
  cases hpointer : d.pointer with
  | none =>
    rw [hpointer] at hending
    obtain ⟨hp, hload⟩ := load_zero hending
    rw [if_pos hp, hload, ok_bind, if_pos rfl]
    rfl
  | some q =>
    rw [hpointer] at hending
    obtain ⟨hp, hload⟩ := load_pointer hending
    have hq := q.isLt
    rw [if_pos (by omega), hload, ok_bind, if_neg (by omega), isPointer_add (by omega), if_pos rfl]
    rfl

/-- **The name of an answer is skipped** when it is labels or a pointer. -/
theorem skipName_encode {d : DnsName} (hplain : d.Plain) (h : b.Holds p d.encode) :
    skipName b p = .ok (p + d.encode.length) := by
  have hle := h.1
  unfold DnsName.encode DnsName.ending at h hle ⊢
  cases hpointer : d.pointer with
  | some q =>
    have hnil : d.labels = [] := hplain.resolve_right (by rw [hpointer]; exact Option.some_ne_none q)
    rw [hpointer, hnil] at h
    obtain ⟨hp, hload⟩ := load_pointer h
    have hq := q.isLt
    unfold skipName
    rw [hload, ok_bind, isPointer_add (by omega), if_pos rfl, hnil]
    rfl
  | none =>
    rw [hpointer] at h hle
    obtain ⟨hlabels, hending⟩ := b.holds_append.mp h
    obtain ⟨hp, hload⟩ := load_zero hending
    have hcount := length_le_encodeLabels d.labels
    rw [List.length_append] at hle ⊢
    have hfuel : b.size + 1 = b.size - d.labels.length + 1 + d.labels.length := by omega
    have hloop : skipLabels b (b.size + 1) p = .ok (p + (encodeLabels d.labels).length + 1) := by
      rw [hfuel, skipLabels_labels d.length_label hlabels, skipLabels, if_pos hp, hload, ok_bind,
        if_pos rfl]
    -- the first byte is not taken for a pointer
    have hfirst : ∃ c, b.load p 1 = .ok c ∧ isPointer c = false := by
      cases hd : d.labels with
      | nil =>
        rw [hd] at hload
        exact ⟨0, hload, rfl⟩
      | cons l ls =>
        have hl := d.length_label l (by rw [hd]; exact List.mem_cons_self)
        rw [hd] at hlabels
        exact ⟨l.length, (holds_labels_cons hl.2 hlabels).2.1, isPointer_of_le hl.2⟩
    obtain ⟨c, hc, hnot⟩ := hfirst
    unfold skipName
    rw [hc, ok_bind, hnot, if_neg Bool.false_ne_true, hloop]
    rfl

/-- The loop over a name goes ahead. -/
theorem lt_of_skipLabels {p' : ℕ} (h : skipLabels b k p = .ok p') : p < p' := by
  induction k generalizing p with
  | zero => cases h
  | succ k ih =>
    unfold skipLabels at h
    split_ifs at h with hp
    · obtain ⟨c, -, hc⟩ := bind_eq_ok.mp h
      split_ifs at hc
      · cases hc
        exact Nat.lt_succ_self p
      · have hlt := ih hc
        omega
    · cases h
      exact Nat.lt_succ_self p

/-- **A pointer behind labels is taken for a label** of 192 bytes or more. -/
theorem lt_of_skipName_of_not_plain {d : DnsName} {p' : ℕ} (hplain : ¬ d.Plain)
    (h : b.Holds p d.encode) (hskip : skipName b p = .ok p') :
    ∀ c ∈ d.ending.head?, p + (encodeLabels d.labels).length + c.toNat + 1 < p' := by
  have hle := h.1
  unfold DnsName.Plain at hplain
  rw [not_or] at hplain
  obtain ⟨l, ls, hd⟩ := List.exists_cons_of_ne_nil hplain.1
  obtain ⟨q, hpointer⟩ := Option.ne_none_iff_exists'.mp hplain.2
  have hq := q.isLt
  unfold DnsName.encode DnsName.ending at h hle
  unfold DnsName.ending
  rw [hpointer] at h hle ⊢
  obtain ⟨hlabels, hending⟩ := b.holds_append.mp h
  obtain ⟨hp, hload⟩ := load_pointer hending
  have hcount := length_le_encodeLabels d.labels
  rw [List.length_append] at hle
  -- the first byte is the length of a label
  have hfirst : ∃ c, b.load p 1 = .ok c ∧ isPointer c = false := by
    have hl := d.length_label l (by rw [hd]; exact List.mem_cons_self)
    rw [hd] at hlabels
    exact ⟨l.length, (holds_labels_cons hl.2 hlabels).2.1, isPointer_of_le hl.2⟩
  obtain ⟨c, hc, hnot⟩ := hfirst
  have hfuel : b.size + 1 = b.size - d.labels.length + 1 + d.labels.length := by omega
  unfold skipName at hskip
  rw [hc, ok_bind, hnot, if_neg Bool.false_ne_true, hfuel,
    skipLabels_labels d.length_label hlabels, skipLabels, if_pos (by omega), hload, ok_bind,
    if_neg (by omega)] at hskip
  have hlt := lt_of_skipLabels hskip
  intro c' hc'
  have hbyte : c' = UInt8.ofNat ((0xC000 + (q : ℕ)) / 256) := (Option.some.inj hc').symm
  rw [hbyte, UInt8.toNat_ofNat', Nat.mod_eq_of_lt (by omega)]
  omega

/-! ## Records -/

theorem length_fixedPart (r : DnsRecord) : r.fixedPart.length = 10 := by
  unfold DnsRecord.fixedPart
  simp

theorem length_encode (r : DnsRecord) :
    r.encode.length = r.owner.encode.length + 10 + r.rdata.length := by
  unfold DnsRecord.encode
  rw [List.length_append, List.length_append, length_fixedPart, Nat.add_assoc]

theorem length_ending_pos (d : DnsName) : 1 ≤ d.ending.length := by
  unfold DnsName.ending
  cases d.pointer with
  | none => exact le_rfl
  | some q => exact Nat.le_succ 1

theorem length_owner_pos (d : DnsName) : 1 ≤ d.encode.length := by
  have hpos := length_ending_pos d
  unfold DnsName.encode
  rw [List.length_append]
  omega

theorem address_eq_some {r : DnsRecord} {ip : IpAddr} (h : r.address = some ip) :
    (r.rtype.toNat = dnsTypeA ∧ r.rdata.length = 4) ∧ r.rdata = ip.toList := by
  unfold DnsRecord.address at h
  split_ifs at h with ha
  cases h
  exact ⟨ha, rfl⟩

/-- The fields behind the owner name. -/
theorem holds_fixedPart {r : DnsRecord} (h : b.Holds p (r.fixedPart ++ r.rdata)) :
    p + 10 + r.rdata.length ≤ b.size ∧ netField b p = .ok r.rtype.toNat ∧
      netField b (p + 8) = .ok r.rdata.length ∧ b.Holds (p + 10) r.rdata := by
  obtain ⟨hfixed, hdata⟩ := b.holds_append.mp h
  rw [length_fixedPart] at hdata
  unfold DnsRecord.fixedPart at hfixed
  rw [b.holds_append, b.holds_append] at hfixed
  obtain ⟨⟨htype, -⟩, hlength⟩ := hfixed
  have hplace : (be16 r.rtype.toNat ++ (be16 r.rclass.toNat ++ r.ttl.toList)).length = 8 := by simp
  rw [hplace] at hlength
  exact ⟨hdata.1, netField_of_holds htype r.rtype.toNat_lt, netField_of_holds hlength r.length_rdata,
    hdata⟩

/-- **One round** of the loop over the answers, at a record whose name is skipped. -/
theorem dnsAnswers_encode {r : DnsRecord} (hplain : r.owner.Plain) (h : b.Holds p r.encode)
    (hroom : p + 12 ≤ b.size) : dnsAnswers b (k + 1) p =
      match r.address with
      | some ip => .ok (some ip)
      | none => dnsAnswers b k (p + r.encode.length) := by
  have hlen := length_encode r
  unfold DnsRecord.encode at h
  obtain ⟨howner, hrest⟩ := b.holds_append.mp h
  obtain ⟨hle, htype, hlength, hdata⟩ := holds_fixedPart hrest
  rw [dnsAnswers, if_pos hroom, skipName_encode hplain howner, ok_bind, if_neg (by omega), htype,
    ok_bind, hlength, ok_bind]
  cases haddress : r.address with
  | some ip =>
    obtain ⟨ha, hip⟩ := address_eq_some haddress
    rw [hip] at hdata
    rw [if_pos ⟨ha.1, ha.2, by omega⟩, vec_of_holds hdata]
    rfl
  | none =>
    have hnot : ¬ (r.rtype.toNat = dnsTypeA ∧ r.rdata.length = 4) := by
      intro ha
      unfold DnsRecord.address at haddress
      rw [dif_pos ha] at haddress
      cases haddress
    rw [if_neg fun ha => hnot ⟨ha.1, ha.2.1⟩, hlen]
    congr 1
    omega

/-- The bytes of the first `A` record are there. -/
theorem length_of_findSome {rs : List DnsRecord} {ip : IpAddr}
    (h : rs.findSome? DnsRecord.address = some ip) : 15 ≤ (rs.flatMap DnsRecord.encode).length := by
  induction rs with
  | nil => cases h
  | cons r rs ih =>
    have hlen := length_encode r
    have hpos := length_owner_pos r.owner
    rw [List.flatMap_cons, List.length_append]
    rw [List.findSome?_cons] at h
    cases haddress : r.address with
    | some ip' =>
      have hfour := (address_eq_some haddress).1.2
      omega
    | none =>
      rw [haddress] at h
      have hrest := ih h
      omega

/-- **The loop over the answers finds the first `A` record** when the names up to it are plain. -/
theorem dnsAnswers_of_plain {rs : List DnsRecord} {ip : IpAddr} (hk : rs.length ≤ k)
    (h : b.Holds p (rs.flatMap DnsRecord.encode)) (hfirst : rs.findSome? DnsRecord.address = some ip)
    (hplain : PlainUpToAddress rs) : dnsAnswers b k p = .ok (some ip) := by
  induction rs generalizing k p with
  | nil => cases hfirst
  | cons r rs ih =>
    have hroom := length_of_findSome hfirst
    have hle := h.1
    rw [List.flatMap_cons] at h
    obtain ⟨hr, hrs⟩ := b.holds_append.mp h
    rw [List.length_cons] at hk
    obtain ⟨k, rfl⟩ : ∃ k', k = k' + 1 := ⟨k - 1, by omega⟩
    rw [dnsAnswers_encode hplain.1 hr (by omega)]
    rw [List.findSome?_cons] at hfirst
    cases haddress : r.address with
    | some ip' =>
      rw [haddress] at hfirst
      exact congrArg Except.ok hfirst
    | none =>
      rw [haddress] at hfirst
      exact ih (by omega) hrs hfirst (hplain.2 haddress)

/-- **The loop finds nothing** when it goes astray to behind the message. -/
theorem dnsAnswers_of_strays {rs : List DnsRecord} (h : b.Holds p (rs.flatMap DnsRecord.encode))
    (hstrays : StraysBehind b.size p rs) : dnsAnswers b k p = .ok none := by
  induction rs generalizing k p with
  | nil => cases hstrays
  | cons r rs ih =>
    rw [List.flatMap_cons] at h
    obtain ⟨hr, hrs⟩ := b.holds_append.mp h
    unfold StraysBehind at hstrays
    cases k with
    | zero => rfl
    | succ k =>
      by_cases hroom : p + 12 ≤ b.size
      · split_ifs at hstrays with hplain
        · rw [dnsAnswers_encode hplain hr hroom, hstrays.1]
          exact ih hrs hstrays.2
        · have howner : b.Holds p r.owner.encode := (b.holds_append.mp hr).1
          obtain ⟨p', hp'⟩ := inside_skipName (b := b) (p := p) (by omega)
          have hlt := lt_of_skipName_of_not_plain hplain howner hp'
          obtain ⟨c, hc⟩ : ∃ c, r.owner.ending.head? = some c := by
            cases hending : r.owner.ending with
            | nil =>
              have hpos := length_ending_pos r.owner
              rw [hending] at hpos
              cases hpos
            | cons c cs => exact ⟨c, rfl⟩
          have hfar := hstrays c hc
          have hbehind := hlt c hc
          rw [dnsAnswers, if_pos hroom, hp', ok_bind, if_pos (by omega)]
      · rw [dnsAnswers, if_neg hroom]

/-! ## Responses -/

theorem length_header (r : DnsResponse) : r.header.length = 12 := by
  unfold DnsResponse.header
  simp

theorem length_question (r : DnsResponse) : r.question.length = r.qname.encode.length + 4 := by
  unfold DnsResponse.question
  simp

/-- The parts of a response in the payload. -/
theorem holds_response {r : DnsResponse} (h : b.Holds 0 r.encode) :
    netField b 0 = .ok r.id.toNat ∧ netField b 2 = .ok r.flags.toNat ∧
      netField b 6 = .ok r.answers.length ∧ b.Holds 12 r.qname.encode ∧
      b.Holds (12 + r.question.length) (r.answers.flatMap DnsRecord.encode) := by
  unfold DnsResponse.encode at h
  rw [b.holds_append, b.holds_append, b.holds_append] at h
  obtain ⟨hheader, hquestion, hanswers, -⟩ := h
  rw [length_header, Nat.zero_add] at hquestion hanswers
  unfold DnsResponse.question at hquestion
  unfold DnsResponse.header at hheader
  simp only [b.holds_append, length_be16, Nat.zero_add, Nat.reduceAdd] at hheader
  obtain ⟨hid, hflags, -, hcount, -⟩ := hheader
  exact ⟨netField_of_holds hid r.id.toNat_lt, netField_of_holds hflags r.flags.toNat_lt,
    netField_of_holds hcount r.length_answers, (b.holds_append.mp hquestion).1, hanswers⟩

/-- The DNS part of `process_udp` gets to the answers of a response with this id. -/
theorem dnsAnswer_encode {r : DnsResponse} (h : b.Holds 0 r.encode) (hne : r.answers ≠ []) :
    dnsAnswer b r.id.toNat = dnsAnswers b r.answers.length (12 + r.question.length) := by
  obtain ⟨hid, hflags, hcount, hname, -⟩ := holds_response h
  have hpos := List.length_pos_of_ne_nil hne
  unfold dnsAnswer
  rw [hid, ok_bind, hflags, ok_bind, hcount, ok_bind, if_pos ⟨rfl, r.isResponse, hpos⟩,
    skipQuestion_encode hname, ok_bind, length_question]
  rfl

theorem answers_ne_nil {r : DnsResponse} {ip : IpAddr} (hip : r.firstAddress = some ip) :
    r.answers ≠ [] := by
  intro hnil
  unfold DnsResponse.firstAddress at hip
  rw [hnil] at hip
  cases hip

variable {n : Net} {frame : Buffer} {srcIp : IpAddr} {off len : ℕ} {dport checksum : UInt16}
  {r : DnsResponse} {ip : IpAddr}

/-- The DNS part gets the payload of a datagram from port 53. -/
theorem deliverUdp_response (h : frame.Holds off r.encode) (hip : r.firstAddress = some ip)
    (hid : r.id.toNat = n.dnsTxnId) :
    ∃ payload : Buffer, payload.size = r.encode.length ∧
      payload.Holds (12 + r.question.length) (r.answers.flatMap DnsRecord.encode) ∧
      n.deliverUdp frame srcIp dnsPort dport.toNat off r.encode.length =
        (dnsAnswers payload r.answers.length (12 + r.question.length)).bind fun answer =>
          match answer with
          | some ip => .ok { n with dnsResult := ip, dnsReceived := true }
          | none => n.callUdpHandler frame srcIp dnsPort dport.toNat off r.encode.length := by
  have hpart := holds_part h
  refine ⟨_, rfl, (holds_response hpart).2.2.2.2, ?_⟩
  have hlong : 12 ≤ r.encode.length := by
    unfold DnsResponse.encode
    rw [List.length_append, length_header]
    omega
  unfold Net.deliverUdp
  rw [if_pos ⟨rfl, hlong⟩, slice_of_holds h, ok_bind, ← hid]
  exact congrArg₂ Except.bind (dnsAnswer_encode hpart (answers_ne_nil hip)) rfl

/-- The response is found when the owner names are plain. -/
theorem processUdp_of_plain
    (h : frame.Holds off (udpDatagram 53 dport checksum r.encode))
    (hfit : 8 + r.encode.length < 2 ^ 16) (hlen : 8 + r.encode.length ≤ len)
    (hid : r.id.toNat = n.dnsTxnId) (hip : r.firstAddress = some ip)
    (hplain : PlainUpToAddress r.answers) :
    n.processUdp frame srcIp off len = .ok { n with dnsResult := ip, dnsReceived := true } := by
  obtain ⟨hpayload, hudp⟩ := @processUdp_datagram n frame srcIp _ _ _ _ _ _ h hfit hlen
  obtain ⟨payload, -, hanswers, hdeliver⟩ :=
    @deliverUdp_response n frame srcIp _ dport _ _ hpayload hip hid
  rw [hudp]
  refine hdeliver.trans ?_
  rw [dnsAnswers_of_plain le_rfl hanswers hip hplain]
  rfl

/-- The variables of the DNS part are left alone when the loop goes astray to behind the
message. -/
theorem processUdp_of_strays
    (h : frame.Holds off (udpDatagram 53 dport checksum r.encode))
    (hfit : 8 + r.encode.length < 2 ^ 16) (hlen : 8 + r.encode.length ≤ len)
    (hid : r.id.toNat = n.dnsTxnId) (hip : r.firstAddress = some ip)
    (hstrays : StraysBehind r.encode.length (12 + r.question.length) r.answers) :
    ∃ n', n.processUdp frame srcIp off len = .ok n' ∧ n'.dnsResult = n.dnsResult ∧
      n'.dnsReceived = n.dnsReceived := by
  obtain ⟨hpayload, hudp⟩ := @processUdp_datagram n frame srcIp _ _ _ _ _ _ h hfit hlen
  obtain ⟨payload, hsize, hanswers, hdeliver⟩ :=
    @deliverUdp_response n frame srcIp _ dport _ _ hpayload hip hid
  rw [hudp]
  rw [← hsize] at hstrays
  rw [dnsAnswers_of_strays hanswers hstrays] at hdeliver
  have hcall : n.deliverUdp frame srcIp (53 : UInt16).toNat dport.toNat (off + 8) r.encode.length =
      n.callUdpHandler frame srcIp dnsPort dport.toNat (off + 8) r.encode.length := hdeliver
  rw [hcall]
  unfold Net.callUdpHandler
  split_ifs
  · rw [slice_of_holds hpayload]
    exact ⟨_, rfl, rfl, rfl⟩
  · exact ⟨n, rfl, rfl, rfl⟩

/-- **The DNS answer is the first `A` record.**  For every response with one question and the id
of the query, `process_udp` sets `dns_result` to the address of the first `A` record, whatever
records are before it, when no owner name up to it has labels before a pointer; and it does not
when such a name leads the loop to behind the message. -/
theorem dns_answer_is_first_address {n : Net} {frame : Buffer} {srcIp : IpAddr} {off len : ℕ}
    {dport checksum : UInt16} {r : DnsResponse} {ip : IpAddr}
    (h : frame.Holds off (udpDatagram 53 dport checksum r.encode))
    (hfit : 8 + r.encode.length < 2 ^ 16) (hlen : 8 + r.encode.length ≤ len)
    (hid : r.id.toNat = n.dnsTxnId) (hip : r.firstAddress = some ip) :
    (PlainUpToAddress r.answers →
      n.processUdp frame srcIp off len = .ok { n with dnsResult := ip, dnsReceived := true }) ∧
    (StraysBehind r.encode.length (12 + r.question.length) r.answers →
      ∃ n', n.processUdp frame srcIp off len = .ok n' ∧ n'.dnsResult = n.dnsResult ∧
        n'.dnsReceived = n.dnsReceived) :=
  ⟨processUdp_of_plain h hfit hlen hid hip, processUdp_of_strays h hfit hlen hid hip⟩

/-! ## Two responses -/

/-- The name `www.a`. -/
def wwwName : DnsName := ⟨[[119, 119, 119], [97]], none, by decide⟩

/-- A pointer to the name of the question. -/
def questionPointer : DnsName := ⟨[], some 12, by decide⟩

/-- The same name as the label `www` and a pointer to `a` in the question. -/
def labelPointer : DnsName := ⟨[[119, 119, 119]], some 16, by decide⟩

/-- A response to the query for the address of `www.a`, with this owner name. -/
def wwwResponse (owner : DnsName) : DnsResponse where
  id := 0x1234
  flags := 0x8180
  qname := wwwName
  qtype := 1
  qclass := 1
  answers := [⟨owner, 1, 1, #v[0, 0, 0, 60], [10, 0, 2, 7], by decide⟩]
  authority := []
  additional := []
  isResponse := by decide
  length_answers := Nat.one_lt_two_pow (by norm_num)

/-- The datagram with the response. -/
def wwwFrame (owner : DnsName) : Buffer :=
  bufferOf (udpDatagram 53 1076 0 (wwwResponse owner).encode)

/-- The owner name is a pointer. -/
theorem dns_answer_is_first_address_pointer :
    Net.started.processUdp (wwwFrame questionPointer) #v[10, 0, 2, 3] 0 47 =
      .ok { Net.started with dnsResult := #v[10, 0, 2, 7], dnsReceived := true } :=
  (dns_answer_is_first_address (holds_bufferOf _) (by decide) (by decide) rfl rfl).1
    ⟨Or.inl rfl, fun _ => trivial⟩

/-- **The owner name is a label and a pointer**: the address is not found. -/
theorem label_pointer_not_found :
    (wwwResponse labelPointer).id.toNat = Net.started.dnsTxnId ∧
      (wwwResponse labelPointer).firstAddress = some #v[10, 0, 2, 7] ∧
      Net.started.processUdp (wwwFrame labelPointer) #v[10, 0, 2, 3] 0 51 ≠
        .ok { Net.started with dnsResult := #v[10, 0, 2, 7], dnsReceived := true } := by
  refine ⟨rfl, rfl, ?_⟩
  have hstrays : StraysBehind (wwwResponse labelPointer).encode.length
      (12 + (wwwResponse labelPointer).question.length) (wwwResponse labelPointer).answers := by
    unfold wwwResponse StraysBehind
    dsimp only
    rw [if_neg (by decide)]
    intro c hc
    cases hc
    decide
  obtain ⟨n', hn', -, hreceived⟩ := @processUdp_of_strays Net.started (wwwFrame labelPointer)
    #v[10, 0, 2, 3] 0 51 1076 0 (wwwResponse labelPointer) #v[10, 0, 2, 7] (holds_bufferOf _)
    (by decide) (by decide) rfl rfl hstrays
  rw [hn']
  intro h
  cases h
  cases hreceived

end Microkernel
