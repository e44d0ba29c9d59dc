/-
# Host names

What `net_dns_resolve` does with the text of a host name before it waits: the test for an address,
and `dns_encode_name` into the query.  `parse_ip` is how the shell reads an address.

A text is the list of its characters without the zero at the end.  The results of `int` arithmetic
are taken modulo 2^32.
-/
import Microkernel.UdpSend
import Microkernel.DnsResponse
import Microkernel.Procfs

namespace Microkernel

/-- The dot. -/
def dot : UInt8 := 0x2E

/-- The characters up to the next dot. -/
def label (s : List UInt8) : List UInt8 := s.takeWhile (· != dot)

/-- The text behind the next dot, or its end. -/
def behindDot (s : List UInt8) : List UInt8 := (s.dropWhile (· != dot)).drop 1

/-- The value of an `int` expression. -/
def int32 (z : ℤ) : ℤ := z.bmod (2 ^ 32)

/-- `isspace`. -/
def isSpace (c : UInt8) : Bool := c == 0x20 || c == 0x09 || c == 0x0A || c == 0x0D

/-- The digits of `atoi`. -/
def atoiDigits : List UInt8 → ℤ → ℤ
  | [], n => n
  | c :: cs, n => if isDigit c then atoiDigits cs (int32 (n * 10 + (c.toNat - 0x30))) else n

/-- The sign of `atoi` and the digits behind it. -/
def atoiSigned (s : List UInt8) : ℤ :=
  if s.head? = some 0x2D then int32 (-atoiDigits s.tail 0)
  else if s.head? = some 0x2B then atoiDigits s.tail 0
  else atoiDigits s 0

/-- `atoi`, with white space and a sign. -/
def atoiInt (s : List UInt8) : ℤ := atoiSigned (s.dropWhile isSpace)

/-- An `int` stored in a byte. -/
def toByte (z : ℤ) : UInt8 := UInt8.ofNat (z % 256).toNat

/-- `isdigit` of the first character; an empty text begins with the zero at its end. -/
def beginsWithDigit (s : List UInt8) : Bool := (s.head?.map isDigit).getD false

/-- A number that fits in a byte. -/
def InByte (z : ℤ) : Prop := 0 ≤ z ∧ z ≤ 255

instance (z : ℤ) : Decidable (InByte z) := inferInstanceAs (Decidable (_ ∧ _))

/-- The test of `net_dns_resolve` for an address. -/
def literalAddress (host : List UInt8) : Option IpAddr :=
  if beginsWithDigit host then
    let a := atoiInt host
    let p := behindDot host
    let b := atoiInt p
    let p := behindDot p
    let c := atoiInt p
    let p := behindDot p
    let d := atoiInt p
    if InByte a ∧ InByte b ∧ InByte c ∧ InByte d then
      some #v[toByte a, toByte b, toByte c, toByte d]
    else none
  else none

theorem length_behindDot_lt {s : List UInt8} (h : s ≠ []) : (behindDot s).length < s.length := by
  have hpos := List.length_pos_of_ne_nil h
  have hle := (List.dropWhile_sublist (l := s) (· != dot)).length_le
  unfold behindDot
  rw [List.length_drop]
  omega

/-- The loop of `dns_encode_name`: what is written, or -1. -/
def dnsEncodeLoop (max : ℤ) (p out : List UInt8) : Option (List UInt8) :=
  if _h : p = [] then some out
  else if 63 < (label p).length ∨ max ≤ (out.length + (label p).length + 1 : ℕ) then none
  else dnsEncodeLoop max (behindDot p) (out ++ UInt8.ofNat (label p).length :: label p)
termination_by p.length
decreasing_by exact length_behindDot_lt _h

/-- `dns_encode_name`: the bytes written, whose number is returned, or -1. -/
def dnsEncodeName (name : List UInt8) (max : ℤ) : Option (List UInt8) :=
  (dnsEncodeLoop max name []).map fun out => if (out.length : ℤ) < max then out ++ [0] else out

/-- The query of `net_dns_resolve`. -/
def dnsQuery (txnId : ℕ) (host : List UInt8) : Option (List UInt8) :=
  (dnsEncodeName host (512 - 12 - 4)).map fun name =>
    Net.netBytes txnId ++ (Net.netBytes 0x0100 ++ (Net.netBytes 1 ++ [0, 0, 0, 0, 0, 0])) ++
      (name ++ [0, 1, 0, 1])

/-- What `net_dns_resolve` does at first. -/
inductive ResolveStart where
  | failed
  | answered (ip : IpAddr)
  | waiting

/-- `net_dns_resolve` up to its loop; `mac` is the result of `resolve_mac` in `net_send_udp`. -/
def NetStack.netDnsResolve (s : NetStack) (host : List UInt8) (mac : Option MacAddr) :
    Access (NetStack × ResolveStart) :=
  if s.nicAvailable = false then .ok (s, .failed)
  else
    match literalAddress host with
    | some ip => .ok (s, .answered ip)
    | none =>
      let txnId := (s.dnsTxnId + 1) % 2 ^ 16
      let s := { s with dnsTxnId := txnId }
      match dnsQuery txnId host with
      | none => .ok (s, .failed)
      | some query =>
        ({ s with dnsReceived := false }.netSendUdp mac s.dnsServer
          (UInt16.ofNat (1024 + txnId % 256)) 53 query).map fun (r : NetStack × Bool) => (r.1, .waiting)

/-- The loop of `parse_ip`. -/
def parseIpLoop : List UInt8 → IpAddr → ℕ → ℤ → IpAddr
  | [], ip, octet, val => if h : octet < 4 then ip.set octet (toByte val) else ip
  | c :: cs, ip, octet, val =>
    if c = dot then
      if h : octet < 4 then parseIpLoop cs (ip.set octet (toByte val)) (octet + 1) 0
      else parseIpLoop cs ip octet 0
    else if isDigit c then parseIpLoop cs ip octet (int32 (val * 10 + (c.toNat - 0x30)))
    else parseIpLoop cs ip octet val

/-- `parse_ip` of the shell. -/
def parseIp (s : List UInt8) : IpAddr := parseIpLoop s #v[0, 0, 0, 0] 0 0

/-! ## The labels of a host name -/

/-- The labels of a host name; a dot at the end is ignored. -/
def hostLabels (name : List UInt8) : List (List UInt8) :=
  if (name.splitOn dot).getLast? = some [] then (name.splitOn dot).dropLast else name.splitOn dot

/-- What a text is made of: the first label, and behind a dot the rest. -/
theorem label_append (s : List UInt8) :
    (label s = s ∧ behindDot s = []) ∨ label s ++ dot :: behindDot s = s := by
  have hsplit := List.takeWhile_append_dropWhile (l := s) (p := (· != dot))
  unfold label behindDot
  cases hrest : s.dropWhile (· != dot) with
  | nil =>
    left
    rw [hrest, List.append_nil] at hsplit
    exact ⟨hsplit, rfl⟩
  | cons c cs =>
    right
    have hdot : c = dot := by
      have hhead := List.head?_dropWhile_not (· != dot) s
      rw [hrest] at hhead
      simpa using hhead
    rw [hrest, hdot] at hsplit
    exact hsplit

theorem dot_not_mem_label (s : List UInt8) : dot ∉ label s := by
  intro hmem
  have hne := List.mem_takeWhile_imp hmem
  rw [bne_self_eq_false] at hne
  exact Bool.noConfusion hne

@[simp] theorem hostLabels_nil : hostLabels [] = [] := rfl

/-- **The labels one by one.** -/
theorem hostLabels_cons {name : List UInt8} (h : name ≠ []) :
    hostLabels name = label name :: hostLabels (behindDot name) := by
  have hnot := dot_not_mem_label name
  rcases label_append name with ⟨hall, hbehind⟩ | hdot
  · rw [hall] at hnot
    rw [hall, hbehind, hostLabels_nil]
    unfold hostLabels
    rw [List.splitOn_eq_singleton hnot, List.getLast?_singleton, if_neg]
    intro hnil
    exact h (Option.some.inj hnil)
  · have hsplit : name.splitOn dot = label name :: (behindDot name).splitOn dot := by
      conv_lhs => rw [← hdot]
      exact List.splitOn_append_cons_self_of_not_mem hnot _
    have hne : (behindDot name).splitOn dot ≠ [] := List.splitOn_ne_nil _ _
    unfold hostLabels
    rw [hsplit, List.getLast?_cons_of_ne_nil hne, List.dropLast_cons_of_ne_nil hne]
    split_ifs
    · rfl
    · rfl

/-! ## `dns_encode_name` -/

/-- **The loop writes the labels**, when none is too long and there is room. -/
theorem dnsEncodeLoop_eq {max : ℤ} {name out out' : List UInt8}
    (h : dnsEncodeLoop max name out = some out') :
    out' = out ++ encodeLabels (hostLabels name) ∧ (∀ l ∈ hostLabels name, l.length ≤ 63) ∧
      (name ≠ [] → (out'.length : ℤ) < max) := by
  induction name, out using dnsEncodeLoop.induct max with
  | case1 out =>
    rw [dnsEncodeLoop, dif_pos rfl] at h
    cases h
    simp
  | case2 name out hne hbad =>
    rw [dnsEncodeLoop, dif_neg hne, if_pos hbad] at h
    cases h
  | case3 name out hne hgood ih =>
    rw [dnsEncodeLoop, dif_neg hne, if_neg hgood] at h
    obtain ⟨heq, hshort, hroom⟩ := ih h
    rw [not_or] at hgood
    rw [hostLabels_cons hne]
    refine ⟨?_, ?_, ?_⟩
    · rw [heq, encodeLabels_cons, List.append_assoc, List.cons_append]
    · intro l hl
      rcases List.mem_cons.mp hl with rfl | hl
      · exact not_lt.mp hgood.1
      · exact hshort l hl
    · intro _
      by_cases hend : behindDot name = []
      · rw [heq, hend]
        simp only [hostLabels_nil, encodeLabels_nil, List.append_nil, List.length_append,
          List.length_cons]
        push_cast
        omega
      · exact hroom hend

/-- The bytes are a valid encoding of a host name: at most `max`, labels of 1 to 63 bytes with one
zero byte at the end, and the labels are those of the name. -/
def ValidEncoding (name : List UInt8) (max : ℤ) (out : List UInt8) : Prop :=
  (out.length : ℤ) ≤ max ∧ ∃ labels, (∀ l ∈ labels, 1 ≤ l.length ∧ l.length ≤ 63) ∧
    out = encodeLabels labels ++ [0] ∧ labels = hostLabels name

/-- **DNS names are encoded right** exactly when no label is empty and there is room for the zero
byte. -/
theorem dns_encode_valid_iff {name out : List UInt8} {max : ℤ}
    (h : dnsEncodeName name max = some out) :
    ValidEncoding name max out ↔ 0 < max ∧ ∀ l ∈ hostLabels name, l ≠ [] := by
  obtain ⟨out', hloop, hout⟩ := Option.map_eq_some_iff.mp h
  obtain ⟨heq, hshort, hroom⟩ := dnsEncodeLoop_eq hloop
  rw [List.nil_append] at heq
  constructor
  · rintro ⟨hle, labels, hlabels, hlist, rfl⟩
    refine ⟨?_, ?_⟩
    · have hpos : 1 ≤ out.length := by
        rw [hlist, List.length_append]
        exact Nat.le_add_left 1 _
      omega
    · intro l hl hnil
      have hone := (hlabels l hl).1
      rw [hnil] at hone
      exact absurd hone (by decide)
  · rintro ⟨hmax, hlabels⟩
    have hlt : (out'.length : ℤ) < max := by
      by_cases hname : name = []
      · rw [heq, hname]
        exact hmax
      · exact hroom hname
    rw [if_pos hlt] at hout
    refine ⟨?_, hostLabels name, ?_, ?_, rfl⟩
    · rw [← hout, List.length_append, List.length_singleton]
      push_cast
      omega
    · intro l hl
      exact ⟨List.length_pos_of_ne_nil (hlabels l hl), hshort l hl⟩
    · rw [← hout, heq]

/-- The name `a.b`. -/
theorem dns_encode_valid_iff_two :
    ValidEncoding [97, 46, 98] 496 [1, 97, 1, 98, 0] ↔
      (0 : ℤ) < 496 ∧ ∀ l ∈ hostLabels [97, 46, 98], l ≠ [] :=
  dns_encode_valid_iff (by simp [dnsEncodeName, dnsEncodeLoop, label, behindDot, dot])

/-- **The name `a..b`** is encoded with an empty label in the middle. -/
theorem dns_encode_empty_label :
    dnsEncodeName [97, 46, 46, 98] 496 = some [1, 97, 0, 1, 98, 0] ∧
      ¬ ValidEncoding [97, 46, 46, 98] 496 [1, 97, 0, 1, 98, 0] := by
  refine ⟨by simp [dnsEncodeName, dnsEncodeLoop, label, behindDot, dot], ?_⟩
  rintro ⟨-, labels, hlabels, -, rfl⟩
  exact absurd (hlabels [] (by decide)).1 (by decide)

/-! ## Addresses -/

/-- The number that digits stand for. -/
def decimal (p : List UInt8) : ℕ := p.foldl (fun n c => n * 10 + (c.toNat - 0x30)) 0

/-- A decimal number from 0 to 255. -/
def octet (p : List UInt8) : Option UInt8 :=
  if p ≠ [] ∧ (∀ c ∈ p, isDigit c = true) ∧ decimal p ≤ 255 then some (UInt8.ofNat (decimal p))
  else none

/-- The address that a text is: exactly four decimal numbers from 0 to 255 with single dots. -/
def addressLiteral (host : List UInt8) : Option IpAddr :=
  match host.splitOn dot with
  | [p₀, p₁, p₂, p₃] =>
    match octet p₀, octet p₁, octet p₂, octet p₃ with
    | some a, some b, some c, some d => some #v[a, b, c, d]
    | _, _, _, _ => none
  | _ => none

/-- The text begins with a digit, and `atoi` reads a number from 0 to 255 at its beginning and
behind each of its first three dots; where there are fewer dots, it reads 0. -/
def FourNumbers (host : List UInt8) : Prop :=
  beginsWithDigit host = true ∧ ∀ i < 4, InByte (atoiInt (behindDot^[i] host))

/-- The test of `net_dns_resolve` takes exactly the texts with four numbers. -/
theorem isSome_literalAddress (host : List UInt8) :
    (literalAddress host).isSome = true ↔ FourNumbers host := by
  unfold literalAddress FourNumbers
  constructor
  · intro h
    dsimp only at h
    split_ifs at h with hdigit hall
    · refine ⟨hdigit, ?_⟩
      intro i hi
      interval_cases i
      · exact hall.1
      · exact hall.2.1
      · exact hall.2.2.1
      · exact hall.2.2.2
    · cases h
    · cases h
  · rintro ⟨hdigit, hall⟩
    rw [if_pos hdigit]
    dsimp only
    rw [if_pos ⟨hall 0 (by norm_num), hall 1 (by norm_num), hall 2 (by norm_num),
      hall 3 (by norm_num)⟩]
    rfl

theorem octet_eq_some {p : List UInt8} {a : UInt8} (h : octet p = some a) :
    p ≠ [] ∧ (∀ c ∈ p, isDigit c = true) ∧ decimal p ≤ 255 ∧ a = UInt8.ofNat (decimal p) := by
  unfold octet at h
  split_ifs at h with hall
  cases h
  exact ⟨hall.1, hall.2.1, hall.2.2, rfl⟩

/-- The four numbers of an address. -/
theorem addressLiteral_eq_some {host : List UInt8} {ip : IpAddr}
    (h : addressLiteral host = some ip) : ∃ p₀ p₁ p₂ p₃ a b c d,
      host = p₀ ++ dot :: (p₁ ++ dot :: (p₂ ++ dot :: p₃)) ∧ octet p₀ = some a ∧
        octet p₁ = some b ∧ octet p₂ = some c ∧ octet p₃ = some d ∧ ip = #v[a, b, c, d] := by
  have hjoin : [dot].intercalate (host.splitOn dot) = host := List.intercalate_splitOn dot
  unfold addressLiteral at h
  split at h
  · next p₀ p₁ p₂ p₃ hsplit =>
    rw [hsplit] at hjoin
    split at h
    · next a b c d ha hb hc hd =>
      cases h
      refine ⟨p₀, p₁, p₂, p₃, a, b, c, d, ?_, ha, hb, hc, hd, rfl⟩
      rw [← hjoin]
      simp [List.intercalate]
    · cases h
  · cases h

theorem isDigit_iff {c : UInt8} : isDigit c = true ↔ 48 ≤ c.toNat ∧ c.toNat ≤ 57 := by
  unfold isDigit
  rw [Bool.and_eq_true, decide_eq_true_eq, decide_eq_true_eq, UInt8.le_iff_toNat_le,
    UInt8.le_iff_toNat_le]
  rfl

theorem not_isDigit_dot : isDigit dot = false := by decide

theorem int32_of_nat {n : ℕ} (h : n < 2 ^ 31) : int32 n = n := by
  unfold int32
  apply Int.bmod_eq_of_le
  · omega
  · omega

/-- The value of digits behind a number. -/
theorem le_foldl_digits (p : List UInt8) (n : ℕ) :
    n ≤ p.foldl (fun n c => n * 10 + (c.toNat - 0x30)) n := by
  induction p generalizing n with
  | nil => exact le_rfl
  | cons c cs ih =>
    have hle := ih (n * 10 + (c.toNat - 0x30))
    rw [List.foldl_cons]
    omega

/-- One digit more, without overflow. -/
theorem int32_digit {c : UInt8} {n : ℕ} (hc : isDigit c = true)
    (h : n * 10 + (c.toNat - 0x30) < 2 ^ 31) :
    int32 ((n : ℤ) * 10 + (c.toNat - 0x30)) = (n * 10 + (c.toNat - 0x30) : ℕ) := by
  have hdigit := isDigit_iff.mp hc
  rw [← int32_of_nat h]
  congr 1
  push_cast [Nat.cast_sub hdigit.1]
  rfl

/-- **`atoi` reads digits** up to the end of the text or a dot. -/
theorem atoiDigits_append {p rest : List UInt8} {n : ℕ} (hp : ∀ c ∈ p, isDigit c = true)
    (hrest : ∀ c ∈ rest.head?, c = dot)
    (hsmall : p.foldl (fun n c => n * 10 + (c.toNat - 0x30)) n < 2 ^ 31) :
    atoiDigits (p ++ rest) n = p.foldl (fun n c => n * 10 + (c.toNat - 0x30)) n := by
  induction p generalizing n with
  | nil =>
    cases rest with
    | nil => rfl
    | cons c cs =>
      have hc := hrest c rfl
      rw [List.nil_append, atoiDigits, hc, not_isDigit_dot]
      rfl
  | cons c cs ih =>
    rw [List.foldl_cons] at hsmall ⊢
    have hle := le_foldl_digits cs (n * 10 + (c.toNat - 0x30))
    have hc := hp c List.mem_cons_self
    rw [List.cons_append, atoiDigits, if_pos hc, int32_digit hc (by omega)]
    exact ih (fun x hx => hp x (List.mem_cons_of_mem _ hx)) hsmall

/-- A digit is no white space and no sign. -/
theorem isDigit_facts {c : UInt8} (hc : isDigit c = true) :
    isSpace c = false ∧ c ≠ 0x2D ∧ c ≠ 0x2B ∧ c ≠ dot := by
  have hdigit := isDigit_iff.mp hc
  have hne : ∀ d : UInt8, d.toNat < 48 → c ≠ d := by
    rintro d hd rfl
    omega
  refine ⟨?_, hne _ (by decide), hne _ (by decide), hne _ (by decide)⟩
  unfold isSpace
  rw [beq_false_of_ne (hne 0x20 (by decide)), beq_false_of_ne (hne 0x09 (by decide)),
    beq_false_of_ne (hne 0x0A (by decide)), beq_false_of_ne (hne 0x0D (by decide))]
  rfl

/-- `atoi` at a number from 0 to 255. -/
theorem atoiInt_octet {p rest : List UInt8} {a : UInt8} (h : octet p = some a)
    (hrest : ∀ c ∈ rest.head?, c = dot) : atoiInt (p ++ rest) = decimal p := by
  obtain ⟨hne, hp, hle, -⟩ := octet_eq_some h
  obtain ⟨c, cs, rfl⟩ := List.exists_cons_of_ne_nil hne
  obtain ⟨hspace, hminus, hplus, -⟩ := isDigit_facts (hp c List.mem_cons_self)
  have hdigits := @atoiDigits_append (c :: cs) rest 0 hp hrest (lt_of_le_of_lt hle (by norm_num))
  unfold atoiInt atoiSigned
  rw [List.cons_append, List.dropWhile_cons_of_neg (by rw [hspace]; exact Bool.false_ne_true),
    List.head?_cons, if_neg (fun h => hminus (Option.some.inj h)),
    if_neg (fun h => hplus (Option.some.inj h))]
  exact hdigits

theorem behindDot_append {p : List UInt8} (hp : ∀ c ∈ p, isDigit c = true) (rest : List UInt8) :
    behindDot (p ++ dot :: rest) = rest := by
  have hall : ∀ c ∈ p, (c != dot) = true := by
    intro c hc
    exact bne_iff_ne.mpr (isDigit_facts (hp c hc)).2.2.2
  unfold behindDot
  rw [List.dropWhile_append_of_pos hall, List.dropWhile_cons_of_neg (by simp), List.drop_one,
    List.tail_cons]

theorem toByte_nat (n : ℕ) : toByte n = UInt8.ofNat n := by
  unfold toByte
  apply UInt8.toNat_inj.mp
  rw [UInt8.toNat_ofNat', UInt8.toNat_ofNat']
  omega

/-- **An address is answered at once**, with its octets. -/
theorem literalAddress_of_literal {host : List UInt8} {ip : IpAddr}
    (h : addressLiteral host = some ip) : literalAddress host = some ip := by
  obtain ⟨p₀, p₁, p₂, p₃, a, b, c, d, rfl, h₀, h₁, h₂, h₃, rfl⟩ := addressLiteral_eq_some h
  obtain ⟨hne₀, hp₀, hle₀, ha⟩ := octet_eq_some h₀
  obtain ⟨-, hp₁, hle₁, hb⟩ := octet_eq_some h₁
  obtain ⟨-, hp₂, hle₂, hc⟩ := octet_eq_some h₂
  obtain ⟨-, hp₃, hle₃, hd⟩ := octet_eq_some h₃
  have hdot : ∀ rest : List UInt8, ∀ x ∈ (dot :: rest).head?, x = dot := by
    intro rest x hx
    exact (Option.some.inj hx).symm
  have hlast : atoiInt p₃ = decimal p₃ := by
    have hatoi := @atoiInt_octet p₃ [] d h₃ (fun x hx => by cases hx)
    rwa [List.append_nil] at hatoi
  have hfirst : beginsWithDigit (p₀ ++ dot :: (p₁ ++ dot :: (p₂ ++ dot :: p₃))) = true := by
    obtain ⟨x, xs, rfl⟩ := List.exists_cons_of_ne_nil hne₀
    exact hp₀ x List.mem_cons_self
  have hin : ∀ n : ℕ, n ≤ 255 → InByte n := fun n hn => ⟨by omega, by omega⟩
  unfold literalAddress
  rw [if_pos hfirst]
  dsimp only
  rw [behindDot_append hp₀, behindDot_append hp₁, behindDot_append hp₂, hlast,
    atoiInt_octet h₀ (hdot _), atoiInt_octet h₁ (hdot _), atoiInt_octet h₂ (hdot _),
    if_pos ⟨hin _ hle₀, hin _ hle₁, hin _ hle₂, hin _ hle₃⟩, toByte_nat, toByte_nat, toByte_nat,
    toByte_nat, ha, hb, hc, hd]

/-- The loop of `parse_ip` over digits. -/
theorem parseIpLoop_digits {p rest : List UInt8} {ip : IpAddr} {k n : ℕ}
    (hp : ∀ c ∈ p, isDigit c = true)
    (hsmall : p.foldl (fun n c => n * 10 + (c.toNat - 0x30)) n < 2 ^ 31) :
    parseIpLoop (p ++ rest) ip k n =
      parseIpLoop rest ip k (p.foldl (fun n c => n * 10 + (c.toNat - 0x30)) n : ℕ) := by
  induction p generalizing n with
  | nil => rfl
  | cons c cs ih =>
    rw [List.foldl_cons] at hsmall ⊢
    have hle := le_foldl_digits cs (n * 10 + (c.toNat - 0x30))
    have hc := hp c List.mem_cons_self
    rw [List.cons_append, parseIpLoop, if_neg (isDigit_facts hc).2.2.2, if_pos hc,
      int32_digit hc (by omega)]
    exact ih (fun x hx => hp x (List.mem_cons_of_mem _ hx)) hsmall

/-- A number of an address and the dot behind it. -/
theorem parseIpLoop_octet {p rest : List UInt8} {ip : IpAddr} {k : ℕ} {a : UInt8} (hk : k < 4)
    (h : octet p = some a) :
    parseIpLoop (p ++ dot :: rest) ip k 0 = parseIpLoop rest (ip.set k a) (k + 1) 0 := by
  obtain ⟨-, hp, hle, rfl⟩ := octet_eq_some h
  have hdigits := @parseIpLoop_digits p (dot :: rest) ip k 0 hp (lt_of_le_of_lt hle (by norm_num))
  refine hdigits.trans ?_
  rw [parseIpLoop, if_pos rfl, dif_pos hk]
  congr 2
  exact toByte_nat _

/-- **The shell reads the same address.** -/
theorem parseIp_of_literal {host : List UInt8} {ip : IpAddr} (h : addressLiteral host = some ip) :
    parseIp host = ip := by
  obtain ⟨p₀, p₁, p₂, p₃, a, b, c, d, rfl, h₀, h₁, h₂, h₃, rfl⟩ := addressLiteral_eq_some h
  obtain ⟨-, hp₃, hle₃, rfl⟩ := octet_eq_some h₃
  unfold parseIp
  rw [parseIpLoop_octet (by norm_num) h₀, parseIpLoop_octet (by norm_num) h₁,
    parseIpLoop_octet (by norm_num) h₂]
  have hdigits := @parseIpLoop_digits p₃ [] (((#v[0, 0, 0, 0].set 0 a).set 1 b).set 2 c) 3 0 hp₃
    (lt_of_le_of_lt hle₃ (by norm_num))
  rw [List.append_nil] at hdigits
  refine hdigits.trans ?_
  rw [parseIpLoop, dif_pos (by norm_num)]
  rw [show (List.foldl (fun n c => n * 10 + (c.toNat - 0x30)) 0 p₃ : ℕ) = decimal p₃ from rfl,
    toByte_nat]
  rfl

/-! ## The resolver -/

/-- When `net_dns_resolve` answers without a query. -/
theorem netDnsResolve_answered {s s' : NetStack} {host : List UInt8} {mac : Option MacAddr}
    {ip : IpAddr} (h : s.netDnsResolve host mac = .ok (s', .answered ip)) :
    literalAddress host = some ip ∧ s' = s := by
  unfold NetStack.netDnsResolve at h
  split_ifs at h
  · cases h
  · cases hliteral : literalAddress host with
    | some ip' =>
      rw [hliteral] at h
      cases h
      exact ⟨rfl, rfl⟩
    | none =>
      rw [hliteral] at h
      dsimp only at h
      cases hquery : dnsQuery ((s.dnsTxnId + 1) % 2 ^ 16) host with
      | none =>
        rw [hquery] at h
        cases h
      | some query =>
        rw [hquery] at h
        obtain ⟨r, -, hr⟩ := Access.map_eq_ok.mp h
        cases hr

theorem netDnsResolve_of_literal {s : NetStack} {host : List UInt8} (mac : Option MacAddr)
    {ip : IpAddr} (hnic : s.nicAvailable = true) (h : literalAddress host = some ip) :
    s.netDnsResolve host mac = .ok (s, .answered ip) := by
  unfold NetStack.netDnsResolve
  rw [if_neg (by rw [hnic]; exact Bool.noConfusion), h]

/-- The text is treated right as an address: it is answered without a query only if it is one, and
then with its octets, which the shell reads too. -/
def LiteralTreatedRight (host : List UInt8) : Prop :=
  (∀ (s s' : NetStack) (mac : Option MacAddr) (ip : IpAddr),
    s.netDnsResolve host mac = .ok (s', .answered ip) → addressLiteral host = some ip) ∧
  ∀ ip, addressLiteral host = some ip → parseIp host = ip

/-- **Address literals.**  A text is treated right exactly when it is an address or has not four
numbers at its beginnings. -/
theorem literal_treated_right_iff (host : List UInt8) :
    LiteralTreatedRight host ↔ (addressLiteral host).isSome = true ∨ ¬ FourNumbers host := by
  constructor
  · rintro ⟨honly, -⟩
    by_contra hnot
    rw [not_or, not_not] at hnot
    obtain ⟨ip, hip⟩ := Option.isSome_iff_exists.mp ((isSome_literalAddress host).mpr hnot.2)
    have hanswer := netDnsResolve_of_literal (s := ⟨Net.started, #v[10, 0, 2, 3], 1⟩) none rfl hip
    have hliteral := honly _ _ _ _ hanswer
    rw [hliteral] at hnot
    exact hnot.1 rfl
  · intro hcases
    refine ⟨?_, fun ip => parseIp_of_literal⟩
    intro s s' mac ip hanswer
    obtain ⟨hip, -⟩ := netDnsResolve_answered hanswer
    rcases hcases with hsome | hnot
    · obtain ⟨ip', hip'⟩ := Option.isSome_iff_exists.mp hsome
      rw [hip', ← hip]
      exact (literalAddress_of_literal hip').symm
    · exact absurd ((isSome_literalAddress host).mp (by rw [hip]; rfl)) hnot

/-- **The host name `3com.com`** is answered with the address 3.0.0.0. -/
theorem host_name_taken_for_address :
    (⟨Net.started, #v[10, 0, 2, 3], 1⟩ : NetStack).netDnsResolve "3com.com".toUTF8.toList none =
        .ok (⟨Net.started, #v[10, 0, 2, 3], 1⟩, .answered #v[3, 0, 0, 0]) ∧
      ¬ LiteralTreatedRight "3com.com".toUTF8.toList := by
  have hliteral : literalAddress "3com.com".toUTF8.toList = some #v[3, 0, 0, 0] := by decide +kernel
  have hanswer := netDnsResolve_of_literal (s := ⟨Net.started, #v[10, 0, 2, 3], 1⟩) none rfl hliteral
  refine ⟨hanswer, ?_⟩
  rintro ⟨honly, -⟩
  have hnot : addressLiteral "3com.com".toUTF8.toList = none := by decide +kernel
  have heq := honly _ _ _ _ hanswer
  rw [hnot] at heq
  cases heq

end Microkernel
