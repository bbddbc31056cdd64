import SentryNode.Library.Progress
import SentryNode.WsServer.Stream

/-!
# The WebSocket server comes to rest

While nothing is broadcast and nobody is accepted, the connections are all that moves, and each move
of a connection brings it nearer to its end or to what is pending (`WsServer.work_connection`). At
rest a connection is disconnected, or it waits for the next notification and has received everything
(`caughtUp_of_quiet`).
-/

set_option autoImplicit false
set_option relaxedAutoImplicit false

namespace SentryNode

open Library

/-- A move of a connection, as against a broadcast, a new client or the end of the senders. -/
def WsEvent.isMove : WsEvent → Bool
  | .connection _ _ => true
  | _ => false

/-! ### The work left -/

/-- The moves that a connection makes in a phase and after it, apart from those for what is
pending. -/
def WsPhase.work : WsPhase → ℕ
  | handshaking => 4
  | subscribing => 3
  | confirming _ => 2
  | sending _ _ => 2
  | streaming _ => 1
  | disconnected _ => 0

/-- The moves left: for each notification pending one to receive it and one to send its text. -/
def WsConnection.work (sent : ℕ) (connection : WsConnection) : ℕ :=
  2 * (sent - connection.next) + connection.phase.work

def WsServer.work (server : WsServer) : ℕ :=
  (server.connections.map (·.work server.sent.length)).sum

namespace WsConnection

variable {serde : SerdeJson} {channel : WsChannel} {connection : WsConnection}

/-- A connection that goes on or returns without a receive. -/
theorem work_phase_lt {sent : ℕ} {phase : WsPhase} {outbox : List String}
    (hphase : phase.work < connection.phase.work) :
    work sent { connection with phase, outbox } < connection.work sent := by
  simpa only [work, Nat.add_lt_add_iff_left] using hphase

theorem work_disconnect_lt {sent : ℕ} (hphase : 0 < connection.phase.work) :
    connection.disconnect.work sent < connection.work sent :=
  work_phase_lt hphase

theorem next_receive [Hex] (serde : SerdeJson) (mode : String)
    {result : Received PendingTxNotification} {next : ℕ}
    (hreceive : Library.receive channel.retained channel.wsBroadcaster.sent connection.next =
      some (result, next)) :
    (connection.receive serde channel mode).next = next := by
  simp only [receive, hreceive]
  cases result with
  | lagged skipped => rfl
  | value notification => cases hjson : serde.notification mode notification <;> simp only [hjson]

/-- A turn of the loop waits, ends the connection, or leaves less pending. -/
theorem work_receive [Hex] {mode : String} (hphase : connection.phase = .streaming mode) :
    connection.receive serde channel mode = connection ∨
      (connection.receive serde channel mode).work channel.wsBroadcaster.sent.length <
        connection.work channel.wsBroadcaster.sent.length := by
  unfold receive
  cases hreceive :
      Library.receive channel.retained channel.wsBroadcaster.sent connection.next with
  | none =>
    simp only
    split_ifs with hclosed
    · exact Or.inr (work_disconnect_lt (by rw [hphase]; exact Nat.one_pos))
    · exact Or.inl rfl
  | some taken =>
    obtain ⟨result, next⟩ := taken
    have hless := lt_of_receive hreceive
    have hle := le_length_of_receive hreceive
    right
    cases result with
    | lagged skipped =>
      simp only [work]
      omega
    | value notification =>
      cases hjson : serde.notification mode notification with
      | none =>
        simp only [work, hjson]
        omega
      | some json =>
        simp only [work, hjson, hphase, WsPhase.work]
        omega

theorem work_step [Hex] (action : WsAction) :
    connection.step serde channel action = connection ∨
      (connection.step serde channel action).work channel.wsBroadcaster.sent.length <
        connection.work channel.wsBroadcaster.sent.length := by
  cases action with
  | handshake succeeds =>
    cases hphase : connection.phase with
    | handshaking =>
      right
      simp only [step, hphase]
      split_ifs
      · exact work_phase_lt (by rw [hphase]; decide)
      · exact work_disconnect_lt (by rw [hphase]; decide)
    | subscribing | confirming | streaming | sending | disconnected =>
      exact Or.inl (by simp only [step, hphase])
  | subscription message =>
    cases hphase : connection.phase with
    | subscribing =>
      right
      simp only [step, hphase]
      cases waitForSubscription serde message with
      | none => exact work_disconnect_lt (by rw [hphase]; decide)
      | some mode => exact work_phase_lt (by rw [hphase]; exact Nat.lt_succ_self 2)
    | handshaking | confirming | streaming | sending | disconnected =>
      exact Or.inl (by simp only [step, hphase])
  | send succeeds =>
    cases hphase : connection.phase with
    | confirming mode =>
      right
      simp only [step, hphase]
      split_ifs
      · exact work_phase_lt (by rw [hphase]; exact Nat.one_lt_two)
      · exact work_disconnect_lt (by rw [hphase]; exact Nat.two_pos)
    | sending mode json =>
      right
      simp only [step, hphase]
      split_ifs
      · exact work_phase_lt (by rw [hphase]; exact Nat.one_lt_two)
      · exact work_disconnect_lt (by rw [hphase]; exact Nat.two_pos)
    | handshaking | subscribing | streaming | disconnected =>
      exact Or.inl (by simp only [step, hphase])
  | receive =>
    cases hphase : connection.phase with
    | streaming mode =>
      simp only [step, hphase]
      exact work_receive hphase
    | handshaking | subscribing | confirming | sending | disconnected =>
      exact Or.inl (by simp only [step, hphase])

end WsConnection

namespace WsServer

variable {serde : SerdeJson} {server : WsServer}

theorem work_connection [Hex] (client : ℕ) (action : WsAction) :
    server.step serde (.connection client action) = server ∨
      (server.step serde (.connection client action)).work < server.work := by
  cases hconnection : server.connections[client]? with
  | none =>
    left
    simp only [step, List.modify_eq_self (List.getElem?_eq_none_iff.mp hconnection)]
  | some connection =>
    have hmodify := modify_eq_set hconnection fun connection ↦
      connection.step serde server.channel action
    have hcases : connection.step serde server.channel action = connection ∨
        (connection.step serde server.channel action).work server.sent.length <
          connection.work server.sent.length := WsConnection.work_step action
    rcases hcases with heq | hless
    · left
      rw [step, hmodify, heq, set_eq_self hconnection]
    · right
      have hsum := sum_map_set_add hconnection (·.work server.sent.length)
        (connection.step serde server.channel action)
      simp only [step, hmodify, work, sent] at hsum hless ⊢
      omega

end WsServer

/-! ### At rest -/

/-- The connection has returned, or it has received everything and waits for more. -/
def CaughtUp (sent : List PendingTxNotification) (connection : WsConnection) : Prop :=
  (∃ mode, connection.phase = .disconnected mode) ∨
    ∃ mode, connection.phase = .streaming mode ∧ connection.next = sent.length

/-- A connection that no action moves. -/
theorem caughtUp_of_still [Hex] {serde : SerdeJson} {channel : WsChannel}
    {connection : WsConnection} (hnext : connection.next ≤ channel.wsBroadcaster.sent.length)
    (hstill : ∀ action, connection.step serde channel action = connection) :
    CaughtUp channel.wsBroadcaster.sent connection := by
  cases hphase : connection.phase with
  | handshaking =>
    have hmoved := congrArg WsConnection.phase (hstill (.handshake true))
    simp [WsConnection.step, hphase] at hmoved
  | subscribing =>
    have hmoved := congrArg WsConnection.phase (hstill (.subscription .timeout))
    simp [WsConnection.step, hphase, waitForSubscription] at hmoved
  | confirming mode =>
    have hmoved := congrArg WsConnection.phase (hstill (.send true))
    simp [WsConnection.step, hphase, WsConnection.sent] at hmoved
  | sending mode json =>
    have hmoved := congrArg WsConnection.phase (hstill (.send true))
    simp [WsConnection.step, hphase, WsConnection.sent] at hmoved
  | disconnected mode => exact Or.inl ⟨mode, hphase⟩
  | streaming mode =>
    refine Or.inr ⟨mode, hphase, Nat.le_antisymm hnext ?_⟩
    have hwaits : connection.receive serde channel mode = connection := by
      simpa only [WsConnection.step, hphase] using hstill .receive
    cases hreceive :
        Library.receive channel.retained channel.wsBroadcaster.sent connection.next with
    | none => exact length_le_of_receive_eq_none hreceive
    | some taken =>
      have hmoved := WsConnection.next_receive serde mode hreceive
      rw [hwaits] at hmoved
      exact absurd hmoved (Nat.ne_of_lt (lt_of_receive hreceive))

/-- Conversely, no action moves a connection that is caught up, while there is a sender. -/
theorem CaughtUp.still [Hex] {serde : SerdeJson} {channel : WsChannel} {connection : WsConnection}
    (hcaughtUp : CaughtUp channel.wsBroadcaster.sent connection) (hopen : channel.closed = false)
    (action : WsAction) : connection.step serde channel action = connection := by
  rcases hcaughtUp with ⟨mode, hphase⟩ | ⟨mode, hphase, hnext⟩
  · cases action <;> simp only [WsConnection.step, hphase]
  · cases action with
    | handshake | subscription | send => simp only [WsConnection.step, hphase]
    | receive =>
      have hnone : Library.receive channel.retained channel.wsBroadcaster.sent connection.next =
          none := by
        rw [receive_of_le (by rw [hnext, Nat.sub_self]; exact Nat.zero_le _), hnext,
          List.getElem?_eq_none (Nat.le_refl _), Option.map_none]
      simp only [WsConnection.step, hphase, WsConnection.receive, hnone, hopen, if_false,
        Bool.false_eq_true]

/-- At rest every connection is caught up. Assumes: it is tracked, so that it is not ahead. -/
theorem caughtUp_of_quiet [Hex] {serde : SerdeJson} {server : WsServer}
    (htracked : EachTracked serde server)
    (hquiet : Quiet WsEvent.isMove (WsServer.step serde) server) {connection : WsConnection}
    (hmem : connection ∈ server.connections) :
    CaughtUp server.sent connection := by
  obtain ⟨client, hclient⟩ := List.mem_iff_getElem?.mp hmem
  refine @caughtUp_of_still _ serde server.channel _ (htracked connection hmem).next_le
    fun action ↦ ?_
  have hsame := congrArg WsServer.connections (hquiet (.connection client action) rfl)
  rw [WsServer.step, modify_eq_set hclient] at hsame
  by_contra hmoved
  exact set_ne_self hclient hmoved hsame

end SentryNode
