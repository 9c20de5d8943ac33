import Mathlib.Data.List.ProdSigma
import Racey.Theorems.TcpClientProgress
import Racey.Theorems.TcpEpollProgress
import Racey.Theorems.TcpOnePiece
import Racey.Theorems.TcpServerProgress

/-! racey-tcp-client with each of the servers. A server receives what the client sends, on connections that it may accept in
    another order than that in which the client made them; and the file that it writes is made up of the quotes that were sent. -/

namespace Racey.TcpClient
open Machine

variable {x : State} {d : List (ℕ × ℕ)}

/-! ### What the client sends -/

theorem nodup_connections (h : (machine.watch connections).Reachable (x, d)) : d.Nodup := by
  obtain ⟨I, -⟩ := inv_of_reachable h
  refine Interleave.nodup_of fun w => ?_
  rw [(I.party w).in_order]
  exact List.nodup_range

/-- Where every thread has sent all quotes, there is a connection for each quote of each thread. -/
theorem perm_of_allSent (h : (machine.watch connections).Reachable (x, d)) (hall : AllSent x) :
    d.Perm (List.range workerNum ×ˢ List.range quotes.length) := by
  obtain ⟨I, -⟩ := inv_of_reachable h
  refine (List.perm_ext_iff_of_nodup (nodup_connections h) (List.nodup_range.product List.nodup_range)).mpr ?_
  rintro ⟨w, n⟩
  rw [List.mem_product, List.mem_range, List.mem_range, ← Interleave.mem_of, (I.party w).in_order, List.mem_range]
  constructor
  · intro hn
    have hw := (I.party w).born fun hpc => by
      rw [hpc] at hn
      exact absurd hn (Nat.not_lt_zero n)
    rw [hall w hw] at hn
    exact ⟨hw, hn⟩
  · rintro ⟨hw, hn⟩
    rw [hall w hw]
    exact hn

theorem script_of_pairs :
    ((List.range workerNum ×ˢ List.range quotes.length).flatMap fun p => message p.2) = (List.replicate workerNum script).flatten := by
  generalize workerNum = m
  induction m with
  | zero => rfl
  | succ m ih =>
    rw [List.range_succ, List.replicate_succ', List.flatten_concat, ← ih]
    simp [SProd.sprod, List.product, script, List.flatMap_map]

theorem message_length (n : ℕ) : (message n).length ≤ 256 := by
  have hall : ∀ m < quotes.length, (message m).length ≤ 256 := by decide +kernel
  rcases lt_or_ge n quotes.length with hn | hn
  · exact hall n hn
  · rw [message, quote, List.getD_eq_getElem?_getD, List.getElem?_eq_none hn]
    decide

theorem message_ne_nil (n : ℕ) : message n ≠ [] := by simp [message]

theorem Inv.sent_length (I : Inv x d) (k : ℕ) : (x.sent k).length ≤ 256 := by
  cases hk : d[k]? with
  | none =>
    rw [(I.fresh k (I.length ▸ List.getElem?_eq_none_iff.mp hk)).2]
    exact Nat.zero_le _
  | some p =>
    rcases I.sent hk with h | ⟨h, -⟩
    · rw [h]
      exact message_length p.2
    · rw [h]
      exact Nat.zero_le _

/-- There is a run of the client on which no call fails, and the connections that it makes. -/
theorem exists_allSent : ∃ x d, (machine.watch connections).Reachable (x, d) ∧ x.main = .returned ∧ AllSent x := by
  obtain ⟨as, x, hr, -, ⟨G, U⟩, hmain⟩ := exists_unfailed_run
  obtain ⟨d, hx⟩ := (reachable_of_run hr).watch connections
  exact ⟨x, d, hx, hmain, G.allSent U hmain⟩

/-- Once `main` has returned, each connection has carried its quote. -/
theorem sent_eq_of_returned (I : Inv x d) (H : Phase x) (hmain : x.main = .returned) {k : ℕ} {p : ℕ × ℕ}
    (hk : d[k]? = some p) : x.sent k = message p.2 :=
  (I.party p.1).done k p.2 hk
    ((I.party p.1).closed (carries_of_returned hmain H (I.born (List.mem_of_getElem? hk))) hk)

theorem sent_of_returned (I : Inv x d) (H : Phase x) (hmain : x.main = .returned) :
    ((List.range d.length).flatMap x.sent) = d.flatMap fun p => message p.2 := by
  rw [List.flatMap_def, List.flatMap_def]
  refine congrArg _ (List.ext_getElem (by simp) fun k hk hk' => ?_)
  rw [List.length_map] at hk'
  simp only [List.getElem_map, List.getElem_range]
  exact sent_eq_of_returned I H hmain (List.getElem?_eq_getElem hk')

end Racey.TcpClient

/-! ### The server with threads -/

namespace Racey.TcpServer
open Machine Interleave

variable {memory : ℤ → ℤ} {streams : ℕ → List UInt8} {old : List UInt8} {s : State} {o : Log} {x : TcpClient.State}
  {d : List (ℕ × ℕ)} {k : ℕ}

/-- All of a closed connection is in the file. -/
theorem Streams.written_of_closed (S : Streams streams old s o) (hk : k ∈ o.closed) : (o.written k).flatten = streams k := by
  obtain ⟨-, hopen, hunread⟩ := S.closed k hk
  have horder := S.in_order k
  rw [hunread, List.append_nil] at horder
  rcases S.hand k with ⟨heq, -⟩ | ⟨chunk, ⟨w, fd, -, hfd⟩, -⟩
  · rw [← heq]
    exact horder
  · exact absurd hfd (hopen fd)

/-- There is nothing to write of an empty stream. -/
theorem Streams.written_of_empty (S : Streams streams old s o) (hk : streams k = []) : (o.written k).flatten = [] := by
  have horder := S.in_order k
  rw [hk, List.append_eq_nil_iff] at horder
  have hread := horder.1
  rcases S.hand k with ⟨heq, -⟩ | ⟨chunk, -, heq⟩
  · rwa [← heq]
  · rw [heq, List.flatten_append, List.append_eq_nil_iff] at hread
    exact hread.1

/-- Once the client has finished and the server has closed what it has accepted, the file consists of the quotes that were
    sent, in chunks that workers have put one after another: all quotes of all threads, if no call of the client has failed. -/
theorem every_quote_copied (order : Equiv.Perm ℕ) (hm : memory (-1) ≤ 0)
    (hx : (TcpClient.machine.watch TcpClient.connections).Reachable (x, d)) (hmain : x.main = .returned)
    (h : ((machine memory (fun k => x.sent (order k)) old).watch observer).Reach (fun a p => Assumed a p.1) (s, o))
    (hclosed : ∀ k, order k < d.length → k ∈ o.closed) :
    (∀ k p, d[order k]? = some p → (o.written k).flatten = TcpClient.message p.2) ∧
    ∃ l, IsInterleaving o.written l ∧ s.file.bytes = l.flatten ++ old.drop l.flatten.length ∧
      l.flatten.Perm (d.flatMap fun p => TcpClient.message p.2) ∧
      (TcpClient.AllSent x → l.flatten.Perm (List.replicate TcpClient.workerNum TcpClient.script).flatten) := by
  obtain ⟨I, H⟩ := TcpClient.inv_of_reachable hx
  have S := streams_of_reach hm h
  obtain ⟨l, hl, hfile⟩ := S.file
  have hperm : l.flatten.Perm (d.flatMap fun p => TcpClient.message p.2) := by
    obtain ⟨tagged, rfl, hof⟩ := hl
    -- The connections in the order of the client, by the numbers that the server has given them.
    have hnodup : ((List.range d.length).map order.symm).Nodup := List.nodup_range.map order.symm.injective
    have hparts := perm_flatten (l := tagged) hnodup fun k hk => by
      rw [hof k]
      refine S.written_of_empty (I.fresh (order k) ?_).2
      rw [← I.length]
      exact not_lt.mp fun hlt => hk (List.mem_map.mpr ⟨order k, List.mem_range.mpr hlt, order.symm_apply_apply k⟩)
    rw [← TcpClient.sent_of_returned I H hmain]
    refine hparts.trans (List.Perm.of_eq ?_)
    rw [List.flatMap_map]
    refine List.flatMap_congr fun k hk => ?_
    rw [hof, S.written_of_closed (hclosed _ (by simpa using hk)), order.apply_symm_apply]
  refine ⟨fun k p hk => ?_, l, hl, hfile.1, hperm, fun hall => ?_⟩
  · have hlt := (List.getElem?_eq_some_iff.mp hk).1
    rw [S.written_of_closed (hclosed k hlt)]
    exact TcpClient.sent_eq_of_returned I H hmain hk
  · rw [← TcpClient.script_of_pairs]
    exact hperm.trans ((TcpClient.perm_of_allSent hx hall).flatMap_right _)

/-- All threads send all quotes, and the server takes the connections one after the other. -/
theorem every_quote_copied_all : ∃ (s : State) (o : Log) (l : List (List UInt8)), IsInterleaving o.written l ∧
    s.file.bytes = l.flatten ++ ([] : List UInt8).drop l.flatten.length ∧
    l.flatten.Perm (List.replicate TcpClient.workerNum TcpClient.script).flatten := by
  obtain ⟨x, d, hx, hmain, hall⟩ := TcpClient.exists_allSent
  obtain ⟨⟨s, o⟩, h, -, -, hclosed⟩ := @exists_served (fun _ => 0) (le_refl 0) (fun k => x.sent (Equiv.refl ℕ k)) [] d.length
  obtain ⟨-, l, hl, hfile, -, hperm⟩ := every_quote_copied (Equiv.refl ℕ) (le_refl 0) hx hmain h hclosed
  exact ⟨s, o, l, hl, hfile, hperm hall⟩

end Racey.TcpServer

/-! ### The server with `epoll` -/

namespace Racey.TcpEpoll
open Machine

variable {old : List UInt8} {s : State} {o : Log} {x : TcpClient.State} {d : List (ℕ × ℕ)} {ks : List ℕ}

/-- Connections that the server has written are for quotes of the client. -/
theorem exists_quotes {order : Equiv.Perm ℕ} (I : TcpClient.Inv x d) (hnodup : d.Nodup) (hks : ks.Nodup)
    (hsent : ∀ k ∈ ks, x.sent (order k) ≠ []) :
    (ks.filterMap fun k => d[order k]?).Nodup ∧
      (ks.flatMap fun k => x.sent (order k)) = (ks.filterMap fun k => d[order k]?).flatMap fun p => TcpClient.message p.2 := by
  refine ⟨hks.filterMap fun j k p hj hk => ?_, ?_⟩
  · have hlt := (List.getElem?_eq_some_iff.mp hj).1
    exact order.injective ((List.getElem?_inj hlt hnodup).mp (hj.trans hk.symm))
  · clear hks
    induction ks with
    | nil => rfl
    | cons k ks ih =>
      have hne := hsent k List.mem_cons_self
      obtain ⟨p, hp⟩ : ∃ p, d[order k]? = some p := by
        by_contra hnone
        have hge : d.length ≤ order k := List.getElem?_eq_none_iff.mp
          (Option.eq_none_iff_forall_ne_some.mpr fun p hp => hnone ⟨p, hp⟩)
        exact hne (I.fresh (order k) (I.length ▸ hge)).2
      have hmessage : x.sent (order k) = TcpClient.message p.2 := (I.sent hp).resolve_right fun h => hne h.1
      have hcons : ((k :: ks).filterMap fun k => d[order k]?) = p :: ks.filterMap fun k => d[order k]? :=
        List.filterMap_cons_some hp
      rw [List.flatMap_cons, hcons, List.flatMap_cons, hmessage, ih fun j hj => hsent j (List.mem_cons_of_mem _ hj)]

/-- Where the quotes arrive in one piece, the file consists at every moment of whole quotes that have been sent, no quote of a
    thread twice; and once all has arrived and the server waits with no event pending, it has every quote that was sent: all
    quotes of all threads, if no call of the client has failed. -/
theorem whole_quotes_copied (order : Equiv.Perm ℕ) (hx : (TcpClient.machine.watch TcpClient.connections).Reachable (x, d))
    (h : ((machine (fun k => x.sent (order k)) old).watch observer).Reach (fun a p => InOnePiece a p.1) (s, o)) :
    ∃ ps : List (ℕ × ℕ), ps.Nodup ∧ ps ⊆ d ∧
      s.file.bytes = (ps.flatMap fun p => TcpClient.message p.2) ++
        old.drop (ps.flatMap fun p => TcpClient.message p.2).length ∧
      (x.main = .returned → Idle s → (∀ k, (s.socket k).unsent = []) → ps.Perm d ∧
        (TcpClient.AllSent x → ps.Perm (List.range TcpClient.workerNum ×ˢ List.range TcpClient.quotes.length))) := by
  obtain ⟨I, H⟩ := TcpClient.inv_of_reachable hx
  obtain ⟨⟨J, P⟩, ks, W⟩ := whole_of_reach (fun k => I.sent_length (order k)) h
  have hnodup := TcpClient.nodup_connections hx
  obtain ⟨hps, hflat⟩ := exists_quotes I hnodup W.nodup fun k hk => (W.arrived J P hk).2
  refine ⟨ks.filterMap fun k => d[order k]?, hps, fun p hp => ?_, hflat ▸ W.file.1, fun hmain hidle harrived => ?_⟩
  · obtain ⟨k, -, hk⟩ := List.mem_filterMap.mp hp
    exact List.mem_of_getElem? hk
  · have hperm : (ks.filterMap fun k => d[order k]?).Perm d := by
      refine (List.perm_ext_iff_of_nodup hps hnodup).mpr fun p => ⟨fun hp => ?_, fun hp => ?_⟩
      · obtain ⟨k, -, hk⟩ := List.mem_filterMap.mp hp
        exact List.mem_of_getElem? hk
      · obtain ⟨j, hj⟩ := List.getElem?_of_mem hp
        have hget : d[order (order.symm j)]? = some p := by rwa [order.apply_symm_apply]
        refine List.mem_filterMap.mpr ⟨order.symm j, W.complete J P hidle (harrived _) ?_, hget⟩
        show x.sent (order (order.symm j)) ≠ []
        rw [TcpClient.sent_eq_of_returned I H hmain hget]
        exact TcpClient.message_ne_nil p.2
    exact ⟨hperm, fun hall => hperm.trans (TcpClient.perm_of_allSent hx hall)⟩

/-- All threads send all quotes, and everything has arrived. -/
theorem whole_quotes_copied_all : ∃ (s : State) (ps : List (ℕ × ℕ)),
    s.file.bytes = (ps.flatMap fun p => TcpClient.message p.2) ++
      ([] : List UInt8).drop (ps.flatMap fun p => TcpClient.message p.2).length ∧
    ps.Perm (List.range TcpClient.workerNum ×ˢ List.range TcpClient.quotes.length) := by
  obtain ⟨x, d, hx, hmain, hall⟩ := TcpClient.exists_allSent
  obtain ⟨I, H⟩ := TcpClient.inv_of_reachable hx
  have hsent : ∀ k < d.length, x.sent (Equiv.refl ℕ k) ≠ [] := fun k hk => by
    rw [Equiv.refl_apply, TcpClient.sent_eq_of_returned I H hmain (List.getElem?_eq_getElem hk)]
    exact TcpClient.message_ne_nil _
  obtain ⟨q, hq, -, harrived, hrest⟩ := exists_arrived (fun k => x.sent (Equiv.refl ℕ k)) [] d.length hsent
  obtain ⟨⟨s, o⟩, hs, hidle, hunsent⟩ := exists_idle hq
  obtain ⟨ps, -, -, hfile, hperm⟩ := whole_quotes_copied (Equiv.refl ℕ) hx hs
  refine ⟨s, ps, hfile, (hperm hmain hidle fun k => ?_).2 hall⟩
  rw [hunsent k]
  rcases lt_or_ge k d.length with hk | hk
  · exact harrived k hk
  · rw [hrest k hk]
    exact (I.fresh k (I.length ▸ hk)).2

end Racey.TcpEpoll
