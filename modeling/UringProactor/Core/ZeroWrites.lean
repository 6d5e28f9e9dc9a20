import UringProactor.Buffer.Filled
import UringProactor.Core.TcpThread
import UringProactor.Net.WriteSide

/-!
# Every `writev` carries data

`has_send_data` counts blocks, while the result of a `writev` counts bytes, and `tcp_write_loop`
takes the result zero for a failure.  Unless `append` is called with no data while nothing is
pending, the send queue has a byte in every block, and no `writev` without bytes is prepared.
-/

namespace Proactor

/-- A run of `tcp_write_loop` on a filled buffer prepares no `writev` without bytes. -/
theorem WriteSide.Runs.pos {s s' : WriteSide} (h : Runs s s') (hfilled : s.buf.Filled s.pool)
    (hsound : s.buf.Sound s.pool) (ha : s.pool.Addressable) {submittedBytes : ℕ}
    (hco : s'.co = .onToken submittedBytes) :
  0 < submittedBytes
  := by
  cases h with
  | finish => cases hco
  | suspend => cases hco
  | throw => cases hco
  | prepare hcount hpeek =>
      cases hco
      apply hfilled.peekIovec_pos hsound ha hcount hpeek

/-- Every `writev` carries data.  In every run of write buffers over a pool in which nothing is
appended to an empty window but data: whenever a buffer has blocks to send, `peek_iovec` reports
at least one byte, every block of the send queue has a byte that is not acknowledged, and
`tcp_write_loop`, wherever it starts to run, does not prepare a `writev` without bytes. -/
theorem writevs_carry_data {num bits bufSize : ℕ} {hbits : bits ≤ 30} {hpos : 0 < bufSize}
    {hlt : bufSize < 2 ^ 31} {pool : BufPool} {caps : ℕ → Fin 31} {σ : WriteSystem}
    (hpool : BufPool.new bits bufSize hbits hpos hlt = some pool)
    (halloc : 2 ^ bits * bufSize < 2 ^ 31)
    (h : Reaches WriteSystem.step WriteSystem.Sensible (.new num pool caps) σ) {c : ℕ}
    (hc : c < σ.num) :
  ((σ.bufs c).hasSendData = true → 0 < ((σ.bufs c).peekIovec σ.pool).2.1)
    ∧ (∀ i ∈ (σ.bufs c).sendList, 0 < σ.pool.dataSize i)
    ∧ (∀ i l, (σ.bufs c).sendList = i :: l → (σ.bufs c).sendHeadOffset < σ.pool.dataSize i)
    ∧ ∀ (d : ℕ) (ch ch' : TcpChannel) (th th' : TcpThread) (submittedBytes : ℕ),
      ch.writeBuf = σ.bufs c → th.bufPool = σ.pool →
      ch.writeLoop d th = some (ch', th') ∨ ch.resumeNotified d th = some (ch', th') →
      ch'.writeCo = .onToken submittedBytes → 0 < submittedBytes
  := by
  have hpacked := WriteSystem.packed_of_reaches hpool halloc h
  have hfilled := hpacked.filled c hc
  have hsound := hpacked.inv.sound hc
  refine ⟨?_, ?_, ?_, ?_⟩
  · intro hdata
    have hne : (σ.bufs c).sendList ≠ [] := by
      intro hnil
      simp [WriteBufStream.hasSendData, (Circular.toList_eq_nil_iff _).mp hnil] at hdata
    have hpeek := WriteBufStream.peekIovec_of_ne hsound hne
    rw [hpeek]
    apply hfilled.peekIovec_pos hsound hpacked.addressable _ hpeek
    apply (List.length_pos_of_ne_nil hne).ne'
  · intro i hi
    apply hfilled.pos i (List.mem_append_right _ hi)
  · intro i l hl
    have hlt := hfilled.offset_lt
    rw [hl] at hlt
    exact hlt
  · rintro d ch ch' th th' submittedBytes hbuf hpool' hrun hco
    have hruns : WriteSide.Runs (ch.writeSide d th) (ch'.writeSide d th') := by
      rcases hrun with hloop | hresume
      · apply (TcpChannel.writeLoop_outcome hloop).runs.1
      · apply (TcpChannel.resumeNotified_outcome hresume).runs.1
    have heq : (ch.writeSide d th).buf = σ.bufs c ∧ (ch.writeSide d th).pool = σ.pool :=
      ⟨hbuf, hpool'⟩
    apply hruns.pos _ _ _ hco
    · rw [heq.1, heq.2]
      apply hfilled
    · rw [heq.1, heq.2]
      apply hsound
    · rw [heq.2]
      apply hpacked.addressable

/-- Three bytes in two blocks, of which one byte is acknowledged. -/
theorem writevs_carry_data_three_bytes :
  ∃ pool σ, BufPool.new 1 2 (by decide) (by decide) (by decide) = some pool
    ∧ Reaches WriteSystem.step WriteSystem.Sensible (.new 1 pool (fun _ => 1)) σ
    ∧ (σ.bufs 0).hasSendData = true ∧ 0 < ((σ.bufs 0).peekIovec σ.pool).2.1
  := by
  have hrun : (BufPool.new 1 2 (by decide) (by decide) (by decide)).bind (fun pool =>
      (Reaches.follow WriteSystem.step WriteSystem.Sensible
        [(0, .append [1, 2]), (0, .append []), (0, .prepend [3]), (0, .submit),
          (0, .consumeWritten 1)]
        (.new 1 pool (fun _ => 1))).map (fun σ => (σ.num, (σ.bufs 0).hasSendData)))
      = some (1, true) := by
    decide +kernel
  obtain ⟨pool, hpool, hfollow⟩ := Option.bind_eq_some_iff.mp hrun
  obtain ⟨σ, hreach, hfinal⟩ := Reaches.of_follow _ hfollow
  obtain ⟨hnum, hdata⟩ := Prod.mk.inj hfinal
  have hc : 0 < σ.num := by
    rw [hnum]
    exact Nat.one_pos
  use pool, σ, hpool, hreach, hdata
  apply (writevs_carry_data hpool (by decide) hreach hc).1 hdata

/-- `append` of no data and `submit` return `true` and leave a block without data in the send
queue.  In a worker, this prepares a `writev` of no bytes, whose result zero closes the
connection. -/
theorem writev_without_data :
  ∃ pool σ w w', BufPool.new 1 2 (by decide) (by decide) (by decide) = some pool
    ∧ Reaches WriteSystem.step WriteSystem.Admits (.new 1 pool (fun _ => 1)) σ
    ∧ (σ.bufs 0).hasSendData = true ∧ ((σ.bufs 0).peekIovec σ.pool).2.1 = 0
    ∧ Reaches Worker.step Worker.Admits
      (Worker.start 8 (BufRing.new 0 1 (by decide) (by decide)) pool 0 1) w
    ∧ (w.channels 0).writeCo = .onToken 0 ∧ (w.channels 0).isClosing = false
    ∧ w.Admits (.complete 3 0 false 0 []) ∧ w.step (.complete 3 0 false 0 []) = some w'
    ∧ (w'.channels 0).isClosing = true
  := by
  have hbuf : (BufPool.new 1 2 (by decide) (by decide) (by decide)).bind (fun pool =>
      (Reaches.follow WriteSystem.step WriteSystem.Admits [(0, .append []), (0, .submit)]
        (.new 1 pool (fun _ => 1))).map (fun σ => ((σ.bufs 0).hasSendData,
          ((σ.bufs 0).peekIovec σ.pool).2.1)))
      = some (true, 0) := by
    decide +kernel
  have hrun : (BufPool.new 1 2 (by decide) (by decide) (by decide)).bind (fun pool =>
      (Reaches.follow Worker.step Worker.Admits
        [.submit, .complete 0 5 true 0 [], .app 0 (.append []), .app 0 .submit, .ret, .batchDone,
          .submit]
        (Worker.start 8 (BufRing.new 0 1 (by decide) (by decide)) pool 0 1)).map (fun w =>
          (decide ((w.channels 0).writeCo = .onToken 0 ∧ (w.channels 0).isClosing = false
            ∧ w.Admits (.complete 3 0 false 0 [])),
          (w.step (.complete 3 0 false 0 [])).map (fun w' => (w'.channels 0).isClosing))))
      = some (true, some true) := by
    decide +kernel
  obtain ⟨pool, hpool, hbuf⟩ := Option.bind_eq_some_iff.mp hbuf
  rw [hpool, Option.bind_some] at hrun
  obtain ⟨σ, hσ, hpeek⟩ := Reaches.of_follow _ hbuf
  obtain ⟨w, hw, hfinal⟩ := Reaches.of_follow _ hrun
  obtain ⟨hdata, hbytes⟩ := Prod.mk.inj hpeek
  obtain ⟨hstate, hstep⟩ := Prod.mk.inj hfinal
  obtain ⟨hco, hopen, hadmits⟩ := of_decide_eq_true hstate
  obtain ⟨w', hstep, hclosing⟩ := Option.map_eq_some_iff.mp hstep
  exact ⟨pool, σ, w, w', hpool, hσ, hdata, hbytes, hw, hco, hopen, hadmits, hstep, hclosing⟩

end Proactor
