import BtcServer.HttpmessageServer.PeerRuns

/-!
# Peers do not interfere

What a connection reads, parses and hands to callbacks is determined by the stream of its peer
(`reads_own_stream`): whatever other peers send, whatever is done with their connections and whoever
stops what, another run of the server in which the peer is the same shows the same, as far as it has
got (`peers_do_not_interfere`).
-/

namespace BtcServer.HttpmessageServer

open Boost Lib

namespace HttpServer

variable {funcs : CallbackTable} {ok ok' : HttpServer → Action → Prop} {as as' : List Action}
  {req req' : Request} {stream stream' : Bytes} {i j : Nat} {p : Peer} {t t' : HttpServer}

/-- What a connection reads is read off the stream of its peer. -/
theorem reads_own_stream (h : Run (step funcs) ok (started req stream) as t)
    (hp : (peersOf funcs req stream as)[i]? = some p) :
    ∃ r, Emits (StreamReader.next funcs) ⟨.head, .fresh, p.1, p.2⟩
      (readEvents (t.conns i).log) r := by
  obtain ⟨l, hconn, hown⟩ := ownRun_of_run _ (fun _ _ _ _ _ => allows_true) h hp
  rw [← hconn]
  exact hown.emits

/-- Two runs of the server in which connections have the same peer: of what these read, parse and
hand to callbacks, one continues the other. -/
theorem peers_do_not_interfere (h : Run (step funcs) ok (started req stream) as t)
    (h' : Run (step funcs) ok' (started req' stream') as' t')
    (hp : (peersOf funcs req stream as)[i]? = some p)
    (hp' : (peersOf funcs req' stream' as')[j]? = some p) :
    readEvents (t.conns i).log <+: readEvents (t'.conns j).log ∨
      readEvents (t'.conns j).log <+: readEvents (t.conns i).log := by
  obtain ⟨r, hemits⟩ := reads_own_stream h hp
  obtain ⟨r', hemits'⟩ := reads_own_stream h' hp'
  rcases hemits.linear hemits' with ⟨more, -, heq⟩ | ⟨more, -, heq⟩
  · exact .inl ⟨more, heq.symm⟩
  · exact .inr ⟨more, heq.symm⟩

def getPeer : Peer := (.uninitialised 0 0 0 false, str "GET / HTTP/1.1\r\n\r\n")

/-- A run in which this peer is the only one. -/
def alone : List Action :=
  [.acceptDone 0 .success, .acceptRun 0 .success (.uninitialised 0 0 0 false) [],
    .io 0 (.receive 0 18), .io 0 (.readDone 0 [.writeResponse 0 (str "a"), .stopAll])]

/-- A run in which it comes behind one that sends no request. -/
def behindAnother : List Action :=
  [.acceptDone 0 .success, .acceptRun 0 .success getPeer.1 getPeer.2, .io 0 (.receive 0 4),
    .acceptDone 0 .success, .io 0 (.readDone 0 []),
    .acceptRun 0 .success (.uninitialised 0 0 0 false) [], .io 1 (.receive 0 1),
    .io 1 (.receive 0 17), .io 1 (.readDone 0 [])]

theorem getPeer_behind_another :
    ∃ t t', Run (step Link.oneCallback) (fun _ _ => True) (started getPeer.1 getPeer.2) alone t ∧
      Run (step Link.oneCallback) (fun _ _ => True)
        (started (.uninitialised 0 0 7 true) (str "\r\n\r\n")) behindAnother t' ∧
      (readEvents (t.conns 0).log ≠ [] ∧ readEvents (t'.conns 1).log ≠ []) ∧
      (readEvents (t.conns 0).log <+: readEvents (t'.conns 1).log ∨
        readEvents (t'.conns 1).log <+: readEvents (t.conns 0).log) := by
  have hrun : ∃ t, Run (step Link.oneCallback) (fun _ _ => True)
      (started getPeer.1 getPeer.2) alone t ∧ readEvents (t.conns 0).log ≠ [] :=
    exists_run_of_exec (by decide +kernel)
  have hrun' : ∃ t, Run (step Link.oneCallback) (fun _ _ => True)
      (started (.uninitialised 0 0 7 true) (str "\r\n\r\n")) behindAnother t ∧
      readEvents (t.conns 1).log ≠ [] :=
    exists_run_of_exec (by decide +kernel)
  have hpeer : (peersOf Link.oneCallback getPeer.1 getPeer.2 alone)[0]? = some getPeer := rfl
  have hpeer' : (peersOf Link.oneCallback (.uninitialised 0 0 7 true) (str "\r\n\r\n")
      behindAnother)[1]? = some getPeer := by decide +kernel
  obtain ⟨t, h, hne⟩ := hrun
  obtain ⟨t', h', hne'⟩ := hrun'
  exact ⟨t, t', h, h', ⟨hne, hne'⟩, peers_do_not_interfere h h' hpeer hpeer'⟩

end HttpServer

end BtcServer.HttpmessageServer
