/-
# Commands and their responses

When a GPU command is only begun while its driver is idle, and a call leaves the wait only
when its own request is no longer with the device, each call gets the response to its request and the buffers of an
outstanding request stay as they were.  The step lemmas say what one step does to the
requests that the device has or will take; the invariant `Matching` goes through runs.

The code enforces neither condition: a time-out returns like a completion, and a second task
overwrites the buffers of the first.
-/
import Microkernel.GpuCommand

namespace Microkernel

namespace VirtioSystem

open Virtq

variable {s : VirtioSystem}

/-- The heads in flight are different. -/
theorem Conserved.nodup (h : Conserved s) : s.outstanding.Nodup := by
  obtain ⟨free, hpool⟩ := h.pool
  have hflat := (List.nodup_append.mp (List.nodup_append.mp hpool.nodup).2.1).2.1
  rw [List.nodup_flatMap] at hflat
  refine hflat.2.imp_of_mem ?_
  rintro x y _ _ hdisj rfl
  exact hdisj (head_mem_chain s.q x) (head_mem_chain s.q x)

/-- What a call of `virtio_send` that succeeds adds. -/
theorem Conserved.waiting_afterSend (h : Conserved s) {outAddr outLen inAddr inLen : UInt32}
    (hok : ¬ (s.q.virtioSend outAddr outLen inAddr inLen).2 < 0) :
    (s.afterSend outAddr outLen inAddr inLen).waiting =
      s.waiting ++ [(s.q.virtioSend outAddr outLen inAddr inLen).2.toNat] := by
  unfold VirtioSystem.waiting VirtioSystem.afterSend
  dsimp only
  rw [if_neg hok, List.drop_append_of_le_length h.taken.length_le]

end VirtioSystem

namespace GpuSystem

open VirtioSystem

variable {s t : GpuSystem} {addr : GpuAddresses}

/-! ## Buffers -/

theorem take_overlay (bytes buf : List UInt8) : (overlay bytes buf).take bytes.length = bytes := by
  unfold overlay
  exact List.take_left

/-- A response over a cleared buffer. -/
theorem take_overlay_clear {resp buf : List UInt8} {n : ℕ} (hle : resp.length ≤ n)
    (hclear : buf.take n = List.replicate n 0) : (overlay resp buf).take n = padded resp n := by
  unfold overlay padded overlay
  rw [List.take_append, List.take_of_length_le hle, List.take_drop,
    Nat.add_sub_cancel' hle, hclear]

/-! ## The requests that the device has or will take -/

theorem nodup_pending (h : Conserved s.vio) : s.pending.Nodup := by
  have hnodup := h.nodup
  unfold VirtioSystem.outstanding at hnodup
  rw [← List.append_assoc] at hnodup
  exact (List.nodup_append.mp hnodup).1

/-- The device takes a request: none is new. -/
theorem pending_fetch (h : Conserved s.vio) {v : VirtioSystem}
    (hst : VirtioSystem.Step s.vio .fetch v) :
    ({ s with vio := v } : GpuSystem).pending.Perm s.pending := by
  cases hst with
  | fetch hne =>
    obtain ⟨rest, hwait, hrest, -⟩ := h.availHead hne
    have hnew : ({ s.vio with
        lastAvail := (s.vio.lastAvail + 1) % 65536
        held := s.vio.availHead :: s.vio.held
        fetched := s.vio.fetched ++ [s.vio.availHead] } : VirtioSystem).waiting = rest := by
      unfold VirtioSystem.waiting
      dsimp only
      rw [hrest, List.length_append, List.length_singleton]
    unfold pending
    dsimp only
    rw [hnew, hwait, List.cons_append]
    exact List.perm_middle

/-- The device completes a request: it leaves. -/
theorem pending_complete (h : Conserved s.vio) {v : VirtioSystem} {head : ℕ} {len : UInt32}
    (hst : VirtioSystem.Step s.vio (.complete head len) v) :
    head ∈ s.pending ∧
      ∀ x, x ∈ ({ s with vio := v } : GpuSystem).pending ↔ x ∈ s.pending ∧ x ≠ head := by
  have hnodup := nodup_pending h
  unfold pending at hnodup
  obtain ⟨-, hheldNodup, hdisj⟩ := List.nodup_append.mp hnodup
  cases hst with
  | complete len hheld =>
    refine ⟨List.mem_append_right _ hheld, fun x => ⟨fun hx => ?_, fun ⟨hx, hne⟩ => ?_⟩⟩
    · rcases List.mem_append.mp hx with hwait | hrest
      · exact ⟨List.mem_append_left _ hwait, hdisj x hwait head hheld⟩
      · have hmem := hheldNodup.mem_erase_iff.mp hrest
        exact ⟨List.mem_append_right _ hmem.2, hmem.1⟩
    · rcases List.mem_append.mp hx with hwait | hrest
      · exact List.mem_append_left _ hwait
      · exact List.mem_append_right _ (hheldNodup.mem_erase_iff.mpr ⟨hne, hrest⟩)

/-! ## The invariant -/

/-- A request that the device has or will take, or whose call waits. -/
def Live (s : GpuSystem) (r : GpuRequest) : Prop :=
  (∃ head ∈ s.pending, s.owner head = r) ∨ ∃ task c, s.calls task = some c ∧ c.request = r

/-- Each driver has at most one live request, whose buffers are as they were until the device
answers; after that the response is in the buffer until its call returns. -/
structure Matching (s : GpuSystem) : Prop where
  conserved : Conserved s.vio
  fresh : ∀ n, s.count ≤ n → s.written n = none
  live : ∀ r, s.Live r → r.number < s.count
  apart : ∀ r r', s.Live r → s.Live r' → r.number = r'.number ∨ r.driver = r'.driver → r = r'
  owners : ∀ x ∈ s.pending, ∀ y ∈ s.pending, s.owner x = s.owner y → x = y
  unwritten : ∀ head ∈ s.pending, s.written (s.owner head).number = none
  untouched : ∀ head ∈ s.pending, s.Untouched head
  unanswered : ∀ task c, s.calls task = some c → s.written c.request.number = none →
    ∃ head ∈ s.pending, s.owner head = c.request
  answered : ∀ task c resp, s.calls task = some c → s.written c.request.number = some resp →
    (s.respBuf c.request.driver).take c.request.respLen = padded resp c.request.respLen
  results : ∀ r ∈ s.results, s.Matched r

theorem Live.of_pending {head : ℕ} (h : head ∈ s.pending) : s.Live (s.owner head) :=
  Or.inl ⟨head, h, rfl⟩

theorem Live.of_call {task : ℕ} {c : GpuCall} (h : s.calls task = some c) : s.Live c.request :=
  Or.inr ⟨task, c, h, rfl⟩

namespace Matching

/-- A step that only lets calls go. -/
theorem restrict (h : Matching s) (hconserved : Conserved t.vio)
    (hpending : ∀ x, x ∈ t.pending ↔ x ∈ s.pending)
    (hcalls : ∀ task c, t.calls task = some c → s.calls task = some c)
    (howner : t.owner = s.owner) (hcount : t.count = s.count) (hwritten : t.written = s.written)
    (hcmd : t.cmdBuf = s.cmdBuf) (hresp : t.respBuf = s.respBuf)
    (hresults : ∀ r ∈ t.results, t.Matched r) : Matching t := by
  have hlive : ∀ r, t.Live r → s.Live r := by
    rintro r (⟨x, hx, rfl⟩ | ⟨task, c, hc, rfl⟩)
    · rw [howner]
      exact Live.of_pending ((hpending x).mp hx)
    · exact Live.of_call (hcalls task c hc)
  refine ⟨hconserved, ?_, ?_, ?_, ?_, ?_, ?_, ?_, ?_, hresults⟩
  · rw [hcount, hwritten]
    exact h.fresh
  · intro r hr
    rw [hcount]
    exact h.live r (hlive r hr)
  · intro r r' hr hr'
    exact h.apart r r' (hlive r hr) (hlive r' hr')
  · intro x hx y hy
    rw [howner]
    exact h.owners x ((hpending x).mp hx) y ((hpending y).mp hy)
  · intro x hx
    rw [howner, hwritten]
    exact h.unwritten x ((hpending x).mp hx)
  · intro x hx
    unfold Untouched
    rw [howner, hcmd, hresp]
    exact h.untouched x ((hpending x).mp hx)
  · intro task c hc
    rw [hwritten, howner]
    intro hnone
    obtain ⟨x, hx, heq⟩ := h.unanswered task c (hcalls task c hc) hnone
    exact ⟨x, (hpending x).mpr hx, heq⟩
  · intro task c resp hc
    rw [hwritten, hresp]
    exact h.answered task c resp (hcalls task c hc)

/-! ## The steps -/

/-- Writing to the buffers of an idle driver changes nothing for the others. -/
theorem overwrite (h : Matching s) {d : GpuDriver} (hidle : s.Idle d) (cmd resp : List UInt8) :
    Matching { s with
      cmdBuf := Function.update s.cmdBuf d cmd
      respBuf := Function.update s.respBuf d resp } := by
  refine ⟨h.conserved, h.fresh, h.live, h.apart, h.owners, h.unwritten, fun x hx => ?_,
    h.unanswered, fun task c w hc hw => ?_, h.results⟩
  · have hne := hidle.2 x hx
    have hun := h.untouched x hx
    unfold Untouched at hun ⊢
    dsimp only
    rwa [Function.update_of_ne hne, Function.update_of_ne hne]
  · have hne := hidle.1 task c hc
    dsimp only
    rw [Function.update_of_ne hne]
    exact h.answered task c w hc hw

/-- A request whose buffers are written is sent. -/
theorem submit (h : Matching s) {task head : ℕ} {v : VirtioSystem} {r : GpuRequest}
    (hidle : s.Idle r.driver) (hnumber : r.number = s.count)
    (hcmd : (s.cmdBuf r.driver).take r.cmd.length = r.cmd)
    (hresp : (s.respBuf r.driver).take r.respLen = List.replicate r.respLen 0)
    (hconserved : Conserved v) (hmem : ∀ x, x ∈ v.waiting ++ v.held ↔ x = head ∨ x ∈ s.pending)
    (hnew : head ∉ s.pending) :
    Matching { s with
      vio := v
      calls := Function.update s.calls task (some ⟨r, s.ticks⟩)
      owner := Function.update s.owner head r
      count := s.count + 1 } := by
  have hold : ∀ x ∈ s.pending, Function.update s.owner head r x = s.owner x := by
    intro x hx
    refine Function.update_of_ne ?_ _ _
    rintro rfl
    exact hnew hx
  have hcalls : ∀ task' c, Function.update s.calls task (some ⟨r, s.ticks⟩) task' = some c →
      c.request = r ∨ s.calls task' = some c := by
    intro task' c hc
    by_cases htask : task' = task
    · subst htask
      rw [Function.update_self] at hc
      cases hc
      exact Or.inl rfl
    · rw [Function.update_of_ne htask] at hc
      exact Or.inr hc
  have hlive : ∀ r', ({ s with
      vio := v
      calls := Function.update s.calls task (some ⟨r, s.ticks⟩)
      owner := Function.update s.owner head r
      count := s.count + 1 } : GpuSystem).Live r' → r' = r ∨ s.Live r' := by
    rintro r' (⟨x, hx, rfl⟩ | ⟨task', c, hc, rfl⟩)
    · rcases (hmem x).mp hx with rfl | hx
      · exact Or.inl (Function.update_self _ _ _)
      · dsimp only
        rw [hold x hx]
        exact Or.inr (Live.of_pending hx)
    · exact (hcalls task' c hc).imp_right Live.of_call
  -- the new request has a new number, and its driver was idle
  have hdriver : ∀ r', s.Live r' → r'.driver ≠ r.driver := by
    rintro r' (⟨x, hx, rfl⟩ | ⟨task', c, hc, rfl⟩)
    · exact hidle.2 x hx
    · exact hidle.1 task' c hc
  have hother : ∀ r', s.Live r' → ¬ (r'.number = r.number ∨ r'.driver = r.driver) := by
    rintro r' hr' (hn | hd)
    · exact absurd (h.live r' hr') (by omega)
    · exact hdriver r' hr' hd
  refine ⟨hconserved, fun n hn => h.fresh n (by dsimp only at hn; omega), ?_, ?_, ?_, ?_, ?_, ?_,
    ?_, h.results⟩
  · intro r' hr'
    show r'.number < s.count + 1
    rcases hlive r' hr' with rfl | hr'
    · omega
    · exact Nat.lt_succ_of_lt (h.live r' hr')
  · intro r₁ r₂ h₁ h₂ heq
    rcases hlive r₁ h₁ with rfl | hl₁ <;> rcases hlive r₂ h₂ with rfl | hl₂
    · rfl
    · exact absurd (heq.imp Eq.symm Eq.symm) (hother r₂ hl₂)
    · exact absurd heq (hother r₁ hl₁)
    · exact h.apart r₁ r₂ hl₁ hl₂ heq
  · intro x hx y hy heq
    dsimp only at heq
    rcases (hmem x).mp hx with rfl | hox <;> rcases (hmem y).mp hy with rfl | hoy
    · rfl
    · rw [Function.update_self, hold y hoy] at heq
      exact absurd (congrArg GpuRequest.driver heq.symm) (hdriver _ (Live.of_pending hoy))
    · rw [Function.update_self, hold x hox] at heq
      exact absurd (congrArg GpuRequest.driver heq) (hdriver _ (Live.of_pending hox))
    · rw [hold x hox, hold y hoy] at heq
      exact h.owners x hox y hoy heq
  · intro x hx
    dsimp only
    rcases (hmem x).mp hx with rfl | hx
    · rw [Function.update_self]
      exact h.fresh _ (by omega)
    · rw [hold x hx]
      exact h.unwritten x hx
  · intro x hx
    unfold Untouched
    dsimp only
    rcases (hmem x).mp hx with rfl | hx
    · rw [Function.update_self]
      exact ⟨hcmd, hresp⟩
    · rw [hold x hx]
      exact h.untouched x hx
  · intro task' c hc hnone
    rcases hcalls task' c hc with hr | hc
    · exact ⟨head, (hmem head).mpr (Or.inl rfl), (Function.update_self _ _ _).trans hr.symm⟩
    · obtain ⟨x, hx, heq⟩ := h.unanswered task' c hc hnone
      exact ⟨x, (hmem x).mpr (Or.inr hx), (hold x hx).trans heq⟩
  · intro task' c w hc hw
    rcases hcalls task' c hc with hr | hc
    · dsimp only at hw
      rw [hr, h.fresh _ (by omega)] at hw
      cases hw
    · exact h.answered task' c w hc hw

/-- **A command begins while its driver is idle.** -/
theorem begin (h : Matching s) {task : ℕ} {d : GpuDriver} {cmd : List UInt8} {respLen : ℕ}
    (hidle : s.Idle d) : Matching (s.beginCmd addr task d cmd respLen) := by
  have hover := h.overwrite hidle (overlay cmd (s.cmdBuf d))
    (overlay (List.replicate respLen 0) (s.respBuf d))
  unfold beginCmd
  dsimp only
  split_ifs with hfail
  · exact hover
  · have hconserved := h.conserved.afterSend (addr.cmdBuf d) (UInt32.ofNat cmd.length)
      (addr.respBuf d) (UInt32.ofNat respLen)
    have hwaiting := h.conserved.waiting_afterSend hfail
    have hheld : (s.vio.afterSend (addr.cmdBuf d) (UInt32.ofNat cmd.length) (addr.respBuf d)
      (UInt32.ofNat respLen)).held = s.vio.held := rfl
    have hperm : ((s.vio.afterSend (addr.cmdBuf d) (UInt32.ofNat cmd.length) (addr.respBuf d)
        (UInt32.ofNat respLen)).waiting ++ (s.vio.afterSend (addr.cmdBuf d)
        (UInt32.ofNat cmd.length) (addr.respBuf d) (UInt32.ofNat respLen)).held).Perm
        ((s.vio.q.virtioSend (addr.cmdBuf d) (UInt32.ofNat cmd.length) (addr.respBuf d)
          (UInt32.ofNat respLen)).2.toNat :: s.pending) := by
      rw [hwaiting, hheld, List.append_assoc, List.singleton_append]
      exact List.perm_middle
    have hnodup := hperm.nodup_iff.mp (nodup_pending (s := { s with
      vio := s.vio.afterSend (addr.cmdBuf d) (UInt32.ofNat cmd.length) (addr.respBuf d)
        (UInt32.ofNat respLen) }) hconserved)
    refine hover.submit (r := ⟨s.count, d, cmd, respLen⟩) hidle rfl ?_ ?_ hconserved
      (fun x => hperm.mem_iff.trans List.mem_cons) (List.nodup_cons.mp hnodup).1
    · dsimp only
      rw [Function.update_self]
      exact take_overlay cmd _
    · dsimp only
      rw [Function.update_self]
      have htake := take_overlay (List.replicate respLen 0) (s.respBuf d)
      rwa [List.length_replicate] at htake

/-- `virtio_poll` returns false only when the counters agree. -/
theorem lastUsedIdx_ne_of_poll {q : Virtq} {fuel : ℕ} {r : Virtq × Bool}
    (hr : q.virtioPoll fuel = some r) (htrue : r.2 = true) : q.lastUsedIdx ≠ q.usedIdx := by
  intro heq
  unfold Virtq.virtioPoll at hr
  rw [if_pos heq] at hr
  cases hr
  cases htrue

/-- **A call goes through the loop of `virtio_wait`.** -/
theorem wait (h : Matching s) {task : ℕ} {c : GpuCall} {fuel : ℕ} {r : Virtq × Bool}
    (hc : s.calls task = some c) (hr : s.vio.q.virtioPoll fuel = some r)
    (horderly : s.Orderly (.wait task)) : Matching (s.afterPoll task c r) := by
  have hconserved := h.conserved.poll hr
  have hpoll : Matching { s with vio := { s.vio with q := r.1, polled := s.vio.completed } } :=
    h.restrict hconserved (fun _ => Iff.rfl) (fun _ _ hcall => hcall) rfl rfl rfl rfl rfl h.results
  unfold afterPoll
  dsimp only
  split_ifs with hend
  · refine hpoll.restrict hconserved (fun _ => Iff.rfl) (fun task' c' hcall => ?_) rfl rfl rfl rfl rfl
      (fun res hres => ?_)
    · by_cases htask : task' = task
      · subst htask
        unfold finishCmd at hcall
        dsimp only at hcall
        rw [Function.update_self] at hcall
        cases hcall
      · unfold finishCmd at hcall
        dsimp only at hcall
        rwa [Function.update_of_ne htask] at hcall
    · rcases List.mem_cons.mp hres with rfl | hres
      · intro hok
        have hgone := horderly c hc (hend.imp_left (lastUsedIdx_ne_of_poll hr))
        have hwritten : s.written c.request.number ≠ none := by
          intro hnone
          obtain ⟨x, hx, heq⟩ := h.unanswered task c hc hnone
          exact hgone x hx heq
        obtain ⟨resp, hresp⟩ := Option.ne_none_iff_exists'.mp hwritten
        exact ⟨resp, hresp, h.answered task c resp hc hresp, of_decide_eq_true hok⟩
      · exact h.results res hres
  · exact hpoll

/-- **The device completes a request.** -/
theorem complete (h : Matching s) {head : ℕ} {v : VirtioSystem} {resp : List UInt8}
    (hst : VirtioSystem.Step s.vio (.complete head (UInt32.ofNat resp.length)) v)
    (hlen : resp.length ≤ (s.owner head).respLen) :
    Matching { s with
      vio := v
      respBuf := Function.update s.respBuf (s.owner head).driver
        (overlay resp (s.respBuf (s.owner head).driver))
      written := Function.update s.written (s.owner head).number (some resp) } := by
  obtain ⟨hhead, hleft⟩ := pending_complete h.conserved hst
  have hlive := Live.of_pending hhead
  -- the other requests have another number and another driver
  have hother : ∀ x ∈ s.pending, x ≠ head → (s.owner x).number ≠ (s.owner head).number ∧
      (s.owner x).driver ≠ (s.owner head).driver := by
    intro x hx hne
    constructor
    · intro heq
      exact hne (h.owners x hx head hhead (h.apart _ _ (Live.of_pending hx) hlive (Or.inl heq)))
    · intro heq
      exact hne (h.owners x hx head hhead (h.apart _ _ (Live.of_pending hx) hlive (Or.inr heq)))
  have hsub : ∀ r, ({ s with
      vio := v
      respBuf := Function.update s.respBuf (s.owner head).driver
        (overlay resp (s.respBuf (s.owner head).driver))
      written := Function.update s.written (s.owner head).number (some resp) } : GpuSystem).Live r →
      s.Live r := by
    rintro r (⟨x, hx, rfl⟩ | ⟨task, c, hc, rfl⟩)
    · exact Live.of_pending ((hleft x).mp hx).1
    · exact Live.of_call hc
  refine ⟨h.conserved.step hst, ?_, fun r hr => h.live r (hsub r hr),
    fun r r' hr hr' => h.apart r r' (hsub r hr) (hsub r' hr'),
    fun x hx y hy => h.owners x ((hleft x).mp hx).1 y ((hleft y).mp hy).1, ?_, ?_, ?_, ?_, ?_⟩
  · intro n hn
    have hlt := h.live _ hlive
    dsimp only at hn ⊢
    rw [Function.update_of_ne (by omega)]
    exact h.fresh n hn
  · intro x hx
    obtain ⟨hx, hne⟩ := (hleft x).mp hx
    dsimp only
    rw [Function.update_of_ne (hother x hx hne).1]
    exact h.unwritten x hx
  · intro x hx
    obtain ⟨hx, hne⟩ := (hleft x).mp hx
    have hun := h.untouched x hx
    unfold Untouched at hun ⊢
    dsimp only
    rwa [Function.update_of_ne (hother x hx hne).2]
  · intro task c hc hnone
    dsimp only at hnone ⊢
    by_cases hn : c.request.number = (s.owner head).number
    · rw [hn, Function.update_self] at hnone
      cases hnone
    · rw [Function.update_of_ne hn] at hnone
      obtain ⟨x, hx, heq⟩ := h.unanswered task c hc hnone
      refine ⟨x, (hleft x).mpr ⟨hx, ?_⟩, heq⟩
      rintro rfl
      exact hn (congrArg GpuRequest.number heq.symm)
  · intro task c w hc hw
    dsimp only at hw ⊢
    by_cases heq : c.request = s.owner head
    · -- the response of this call is written into its buffer
      rw [heq, Function.update_self] at hw
      cases hw
      rw [heq, Function.update_self]
      exact take_overlay_clear hlen (h.untouched head hhead).2
    · have hne : ¬ (c.request.number = (s.owner head).number ∨
          c.request.driver = (s.owner head).driver) :=
        fun hor => heq (h.apart _ _ (Live.of_call hc) hlive hor)
      rw [not_or] at hne
      rw [Function.update_of_ne hne.1] at hw
      rw [Function.update_of_ne hne.2]
      exact h.answered task c w hc hw
  · intro r hr hok
    obtain ⟨w, hw, hcopied⟩ := h.results r hr hok
    have hne : r.request.number ≠ (s.owner head).number := by
      intro heq
      rw [heq, h.unwritten head hhead] at hw
      cases hw
    refine ⟨w, ?_, hcopied⟩
    dsimp only
    rwa [Function.update_of_ne hne]

/-- **Every orderly step keeps the invariant.** -/
theorem step {e : GpuEvent} (h : Matching s) (horderly : s.Orderly e) (hst : Step addr s e t) :
    Matching t := by
  cases hst with
  | begin d cmd respLen hnone => exact h.begin horderly
  | wait hc hr => exact h.wait hc hr horderly
  | fetch hst =>
    exact h.restrict (h.conserved.step hst)
      (fun x => (pending_fetch h.conserved hst).mem_iff) (fun _ _ hc => hc)
      rfl rfl rfl rfl rfl h.results
  | complete hst hlen => exact h.complete hst hlen
  | tick n =>
    exact h.restrict h.conserved (fun _ => Iff.rfl) (fun _ _ hc => hc) rfl rfl rfl rfl rfl h.results

end Matching

/-- Nothing is live at the start. -/
theorem matching_start {qsize : ℕ} (hdvd : qsize ∣ 65536) (hsmall : qsize ≤ 32768)
    (cmdBuf respBuf : GpuDriver → List UInt8) (owner : ℕ → GpuRequest) :
    Matching (start qsize cmdBuf respBuf owner) := by
  have hpending : ∀ x, x ∉ (start qsize cmdBuf respBuf owner).pending := fun x => List.not_mem_nil
  have hlive : ∀ r, ¬ (start qsize cmdBuf respBuf owner).Live r := by
    rintro r (⟨x, hx, -⟩ | ⟨task, c, hc, -⟩)
    · exact hpending x hx
    · cases hc
  refine ⟨conserved_start hdvd hsmall, fun n _ => rfl, fun r hr => absurd hr (hlive r),
    fun r r' hr _ => absurd hr (hlive r), fun x hx => absurd hx (hpending x),
    fun x hx => absurd hx (hpending x), fun x hx => absurd hx (hpending x), ?_, ?_, ?_⟩
  · intro task c hc
    cases hc
  · intro task c w hc
    cases hc
  · intro r hr
    cases hr

/-- **GPU commands and responses.**  In every run of the tasks, the timer and the device in
which a command is only begun while its driver is idle, and a call only leaves `virtio_wait`
when its own request is no longer with the device, a call that returns true has the response the device
wrote for it, and the buffers of a request that the device has or will take are untouched. -/
theorem gpu_commands_match {qsize k : ℕ} (hsize : qsize = 2 ^ k) (hk : k ≤ 15)
    (cmdBuf respBuf : GpuDriver → List UInt8) (owner : ℕ → GpuRequest) {es : List GpuEvent}
    (hrun : Run (fun s e t => s.Orderly e ∧ Step addr s e t)
      (start qsize cmdBuf respBuf owner) es s) :
    (∀ r ∈ s.results, s.Matched r) ∧ ∀ head ∈ s.pending, s.Untouched head := by
  have hdvd : qsize ∣ 65536 := by
    rw [hsize, show 65536 = 2 ^ 16 by norm_num]
    exact pow_dvd_pow 2 (by omega)
  have hsmall : qsize ≤ 32768 := by
    rw [hsize, show 32768 = 2 ^ 15 by norm_num]
    exact Nat.pow_le_pow_right (by norm_num) hk
  have h : Matching s := hrun.invariant (fun _ _ _ hst hm => hm.step hst.1 hst.2)
    (matching_start hdvd hsmall cmdBuf respBuf owner)
  exact ⟨h.results, h.untouched⟩

/-- A control queue of four descriptors, cleared buffers. -/
def startFour : GpuSystem :=
  start 4 (fun _ => List.replicate 8 0) (fun _ => List.replicate 8 0) fun _ => ⟨0, .gpu2d, [], 0⟩

/-- Some addresses. -/
def addrFour : GpuAddresses := ⟨fun _ => 0x1000, fun _ => 0x2000⟩

/-- A command that the device answers with `VIRTIO_GPU_RESP_OK_NODATA`. -/
theorem gpu_commands_match_four : ∃ s, Run (fun s e t => s.Orderly e ∧ Step addrFour s e t)
    startFour [.begin 0 .gpu2d [0, 1] 4, .fetch, .complete 0 [0, 0x11], .wait 0] s ∧
    s.results.map GpuResult.ok = [true] ∧
    (∀ r ∈ s.results, s.Matched r) ∧ ∀ head ∈ s.pending, s.Untouched head := by
  obtain ⟨s, hrun, hok⟩ : ∃ s, Run (fun s e t => s.Orderly e ∧ Step addrFour s e t)
      startFour [.begin 0 .gpu2d [0, 1] 4, .fetch, .complete 0 [0, 0x11], .wait 0] s ∧
      s.results.map GpuResult.ok = [true] := by
    refine ⟨_, .cons ⟨⟨fun _ _ hc => (nomatch hc), fun _ hx => (nomatch hx)⟩, .begin _ _ _ rfl⟩
      (.cons ⟨trivial, .fetch (.fetch (by decide))⟩
        (.cons ⟨trivial, .complete (.complete _ (by decide)) (by decide)⟩
          (.cons ⟨?_, @Step.wait _ _ 0 _ 4 _ rfl (Option.some_get (by decide)).symm⟩ (.nil _)))), ?_⟩
    · intro c hc _ head hhead
      exact absurd hhead List.not_mem_nil
    · decide
  exact ⟨s, hrun, hok, @gpu_commands_match s addrFour 4 2 rfl (by norm_num) _ _ _ _ hrun⟩

/-- A time-out returns like a completion, and a second command overwrites the first. -/
theorem timeout_matches_nothing :
    (∃ s, Run (Step addrFour) startFour [.begin 0 .gpu2d [0, 1] 4, .tick 51, .wait 0] s ∧
      ∃ r ∈ s.results, ¬ s.Matched r) ∧
    ∃ s, Run (Step addrFour) startFour [.begin 0 .gpu2d [0, 1] 4, .begin 1 .gpu2d [1, 1] 4] s ∧
      ∃ head ∈ s.pending, ¬ s.Untouched head := by
  constructor
  · refine ⟨_, .cons (.begin _ _ _ rfl) (.cons (.tick _) (.cons
      (@Step.wait _ _ 0 _ 4 _ rfl (Option.some_get (by decide)).symm) (.nil _))), _,
      List.mem_cons_self, ?_⟩
    intro hmatched
    obtain ⟨resp, hresp, -⟩ := hmatched (by decide)
    cases hresp
  · refine ⟨_, .cons (.begin _ _ _ rfl) (.cons (.begin _ _ _ rfl) (.nil _)), 0, by decide, ?_⟩
    intro huntouched
    exact absurd huntouched.1 (by decide)

end GpuSystem

end Microkernel
