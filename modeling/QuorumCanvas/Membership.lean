import QuorumCanvas.Gateway

/-!
# Board membership

The boards' users are exactly the open sockets that have joined, each under the
ids of its own connection, as long as every join message carries these ids.  A
join message with other ids is registered under them all the same, and the close
handler then looks for it under the connection's.
-/

namespace QuorumCanvas

/-! ## The board manager -/

namespace BoardManager

variable {m : BoardManager} {boardId userId : String} {ws ws' : ℕ}

/-- No user is listed twice on a board, and none without a socket. -/
structure WellFormed (m : BoardManager) : Prop where
  distinct : ∀ b, OrderedMap.KeysDistinct (m.users b)
  occupied : ∀ b u, m.hasUser b u = true → m.socketsOf b u ≠ []

/-- A board that was set has these users. -/
theorem users_set_self (users : OrderedMap String (List ℕ)) :
    BoardManager.users (OrderedMap.set m boardId users) boardId = users := by
  unfold BoardManager.users
  rw [OrderedMap.get?_set_self]
  rfl

/-- The others keep theirs. -/
theorem users_set_ne (users : OrderedMap String (List ℕ)) {b : String} (h : b ≠ boardId) :
    BoardManager.users (OrderedMap.set m boardId users) b = m.users b := by
  unfold BoardManager.users
  rw [OrderedMap.get?_set_ne _ _ h]

/-- A join adds one connection. -/
theorem mem_socketsOf_joinBoard {b u : String} :
    ws' ∈ (m.joinBoard boardId userId ws).socketsOf b u ↔
      ws' ∈ m.socketsOf b u ∨ ws' = ws ∧ b = boardId ∧ u = userId := by
  unfold joinBoard socketsOf
  by_cases hb : b = boardId
  · subst hb
    rw [users_set_self]
    by_cases hu : u = userId
    · subst hu
      rw [OrderedMap.get?_set_self, Option.getD_some]
      split
      · next hmem =>
          constructor
          · exact Or.inl
          · intro h
            rcases h with h | ⟨rfl, -⟩
            · exact h
            · exact hmem
      · simp
    · rw [OrderedMap.get?_set_ne _ _ hu]
      simp [hu]
  · rw [users_set_ne _ hb]
    simp [hb]

/-- It adds one user, if not there. -/
theorem hasUser_joinBoard {b u : String} :
    (m.joinBoard boardId userId ws).hasUser b u = true ↔
      m.hasUser b u = true ∨ b = boardId ∧ u = userId := by
  unfold joinBoard hasUser
  by_cases hb : b = boardId
  · subst hb
    rw [users_set_self]
    by_cases hu : u = userId
    · subst hu
      rw [OrderedMap.get?_set_self]
      simp
    · rw [OrderedMap.get?_set_ne _ _ hu]
      simp [hu]
  · rw [users_set_ne _ hb]
    simp [hb]

/-- A join lists its user once, with a socket. -/
theorem WellFormed.joinBoard (h : m.WellFormed) (boardId userId : String) (ws : ℕ) :
    (m.joinBoard boardId userId ws).WellFormed := by
  constructor
  · intro b
    by_cases hb : b = boardId
    · subst hb
      unfold BoardManager.joinBoard
      rw [users_set_self]
      exact (h.distinct b).set _ _
    · unfold BoardManager.joinBoard
      rw [users_set_ne _ hb]
      exact h.distinct b
  · intro b u hu
    rcases hasUser_joinBoard.mp hu with hold | hnew
    · obtain ⟨x, hx⟩ := List.exists_mem_of_ne_nil _ (h.occupied b u hold)
      exact List.ne_nil_of_mem (mem_socketsOf_joinBoard.mpr (Or.inl hx))
    · exact List.ne_nil_of_mem (mem_socketsOf_joinBoard.mpr (Or.inr ⟨rfl, hnew⟩))

/-- The cases of `leaveBoard`: the user is not there, leaves, or keeps some sockets. -/
theorem leaveBoard_cases (m : BoardManager) (boardId userId : String) (ws : ℕ) :
    (m.hasUser boardId userId = false ∧ m.leaveBoard boardId userId ws = (m, false)) ∨
      (m.hasUser boardId userId = true ∧
        (m.socketsOf boardId userId).filter (fun s => s ≠ ws) = [] ∧
        m.leaveBoard boardId userId ws =
          (OrderedMap.set m boardId (OrderedMap.erase (m.users boardId) userId), true)) ∨
      (m.hasUser boardId userId = true ∧
        (m.socketsOf boardId userId).filter (fun s => s ≠ ws) ≠ [] ∧
        m.leaveBoard boardId userId ws =
          (OrderedMap.set m boardId (OrderedMap.set (m.users boardId) userId
            ((m.socketsOf boardId userId).filter fun s => s ≠ ws)), false)) := by
  unfold leaveBoard hasUser socketsOf
  cases hget : OrderedMap.get? (m.users boardId) userId with
  | none => exact Or.inl ⟨rfl, rfl⟩
  | some sockets =>
      dsimp only [Option.getD_some]
      by_cases hempty : sockets.filter (fun s => s ≠ ws) = []
      · exact Or.inr (Or.inl ⟨rfl, hempty, if_pos hempty⟩)
      · exact Or.inr (Or.inr ⟨rfl, hempty, if_neg hempty⟩)

theorem socketsOf_eq_nil (h : m.hasUser boardId userId = false) :
    m.socketsOf boardId userId = [] := by
  unfold hasUser at h
  unfold socketsOf
  rw [Option.isSome_eq_false_iff, Option.isNone_iff_eq_none] at h
  rw [h]
  rfl

/-- Leaving removes one connection. -/
theorem mem_socketsOf_leaveBoard {b u : String} :
    ws' ∈ (m.leaveBoard boardId userId ws).1.socketsOf b u ↔
      ws' ∈ m.socketsOf b u ∧ ¬ (ws' = ws ∧ b = boardId ∧ u = userId) := by
  rcases leaveBoard_cases m boardId userId ws with ⟨hno, heq⟩ | ⟨-, hempty, heq⟩ | ⟨-, -, heq⟩
  · rw [heq]
    refine ⟨fun h => ⟨h, ?_⟩, And.left⟩
    intro ⟨_, hb, hu⟩
    rw [hb, hu, socketsOf_eq_nil hno] at h
    cases h
  · rw [heq]
    by_cases hb : b = boardId
    · subst hb
      unfold socketsOf at hempty ⊢
      rw [users_set_self]
      by_cases hu : u = userId
      · subst hu
        rw [OrderedMap.get?_erase_self]
        have hall := List.filter_eq_nil_iff.mp hempty
        simp only [Option.getD_none, List.not_mem_nil, and_true, false_iff, not_and, not_not]
        intro hmem
        simpa using hall ws' hmem
      · rw [OrderedMap.get?_erase_ne _ hu]
        simp [hu]
    · unfold socketsOf
      rw [users_set_ne _ hb]
      simp [hb]
  · rw [heq]
    by_cases hb : b = boardId
    · subst hb
      unfold socketsOf
      rw [users_set_self]
      by_cases hu : u = userId
      · subst hu
        rw [OrderedMap.get?_set_self, Option.getD_some]
        simp
      · rw [OrderedMap.get?_set_ne _ _ hu]
        simp [hu]
    · unfold socketsOf
      rw [users_set_ne _ hb]
      simp [hb]

/-- A user leaves when its last socket on the board does. -/
theorem leaveBoard_snd (h : m.WellFormed) :
    (m.leaveBoard boardId userId ws).2 = true ↔
      ws ∈ m.socketsOf boardId userId ∧ ∀ s ∈ m.socketsOf boardId userId, s = ws := by
  rcases leaveBoard_cases m boardId userId ws with ⟨hno, heq⟩ | ⟨hyes, hempty, heq⟩ |
    ⟨-, hrest, heq⟩
  · rw [heq, socketsOf_eq_nil hno]
    simp
  · have hall : ∀ s ∈ m.socketsOf boardId userId, s = ws := by
      intro s hs
      simpa using List.filter_eq_nil_iff.mp hempty s hs
    obtain ⟨s, hs⟩ := List.exists_mem_of_ne_nil _ (h.occupied boardId userId hyes)
    rw [heq]
    exact iff_of_true rfl ⟨hall s hs ▸ hs, hall⟩
  · rw [heq]
    refine iff_of_false nofun ?_
    intro ⟨_, hall⟩
    exact hrest (List.filter_eq_nil_iff.mpr fun s hs => by simp [hall s hs])

/-- A user whose last socket leaves is removed. -/
theorem WellFormed.leaveBoard (h : m.WellFormed) (boardId userId : String) (ws : ℕ) :
    (m.leaveBoard boardId userId ws).1.WellFormed := by
  rcases leaveBoard_cases m boardId userId ws with ⟨-, heq⟩ | ⟨-, -, heq⟩ | ⟨-, hrest, heq⟩
  · rw [heq]
    exact h
  · rw [heq]
    constructor
    · intro b
      by_cases hb : b = boardId
      · subst hb
        rw [users_set_self]
        exact (h.distinct b).erase userId
      · rw [users_set_ne _ hb]
        exact h.distinct b
    · intro b u hu
      unfold hasUser at hu
      unfold socketsOf
      by_cases hb : b = boardId
      · subst hb
        rw [users_set_self] at hu ⊢
        by_cases hu' : u = userId
        · subst hu'
          rw [OrderedMap.get?_erase_self] at hu
          cases hu
        · rw [OrderedMap.get?_erase_ne _ hu'] at hu ⊢
          exact h.occupied b u hu
      · rw [users_set_ne _ hb] at hu ⊢
        exact h.occupied b u hu
  · rw [heq]
    constructor
    · intro b
      by_cases hb : b = boardId
      · subst hb
        rw [users_set_self]
        exact (h.distinct b).set _ _
      · rw [users_set_ne _ hb]
        exact h.distinct b
    · intro b u hu
      unfold hasUser at hu
      unfold socketsOf
      by_cases hb : b = boardId
      · subst hb
        rw [users_set_self] at hu ⊢
        by_cases hu' : u = userId
        · subst hu'
          rw [OrderedMap.get?_set_self]
          exact hrest
        · rw [OrderedMap.get?_set_ne _ _ hu'] at hu ⊢
          exact h.occupied b u hu
      · rw [users_set_ne _ hb] at hu ⊢
        exact h.occupied b u hu

/-- A broadcast reaches the connections of a board, but for the sender's. -/
theorem mem_recipients (h : m.WellFormed) {excludeWs : ℕ} :
    ws ∈ m.recipients boardId excludeWs ↔
      ws ≠ excludeWs ∧ ∃ u, ws ∈ m.socketsOf boardId u := by
  unfold recipients
  rw [List.mem_filter, List.mem_flatMap]
  constructor
  · intro ⟨⟨⟨u, sockets⟩, hmem, hws⟩, hne⟩
    refine ⟨by simpa using hne, u, ?_⟩
    unfold socketsOf
    rw [(OrderedMap.get?_eq_some_iff (h.distinct boardId)).mpr hmem]
    exact hws
  · intro ⟨hne, u, hws⟩
    refine ⟨?_, by simpa using hne⟩
    unfold socketsOf at hws
    cases hget : OrderedMap.get? (m.users boardId) u with
    | none =>
        rw [hget] at hws
        cases hws
    | some sockets =>
        rw [hget] at hws
        exact ⟨(u, sockets), OrderedMap.mem_of_get? hget, hws⟩

end BoardManager

namespace Gateway

variable {limits : GatewayLimits} {s s' : Gateway}

/-! ## The property and the invariant -/

/-- **The boards' users are the open sockets that have joined,** each under the ids
it was admitted with; no user is without a socket; broadcasts have reached only
sockets admitted to their board; and the departures announced are those due. -/
structure BoardsMatch (s : Gateway) : Prop where
  members : ∀ b u ws, ws ∈ s.manager.socketsOf b u ↔ s.Member ws b u
  occupied : ∀ b u, s.manager.hasUser b u = true → s.manager.socketsOf b u ≠ []
  delivered : ∀ d ∈ s.broadcasts, d.boardId = d.admittedTo
  announced : s.left = s.due

/-- The property with what keeps it going. -/
structure Consistent (s : Gateway) : Prop extends BoardsMatch s where
  distinct : ∀ b, OrderedMap.KeysDistinct (s.manager.users b)
  connections : OrderedMap.KeysDistinct s.connections
  numbered : ∀ ws, (s.connections.get? ws).isSome = true → ws < s.nextWs
  joined : ∀ ws ∈ s.joined, ws < s.nextWs

/-- Every join message carries the ids of its own connection. -/
def JoinsOwn (s : Gateway) : Event → Prop
  | .join ws boardId userId => ∀ info, s.connections.get? ws = some info →
      boardId = info.boardId ∧ userId = info.userId
  | _ => True

/-- Nobody is connected at the start. -/
theorem consistent_start : Consistent start where
  members := by
    intro b u ws
    refine iff_of_false (List.not_mem_nil (a := ws)) ?_
    intro ⟨hjoined, _⟩
    cases hjoined
  occupied := fun b u h => by cases h
  delivered := fun d hd => by cases hd
  announced := rfl
  distinct := fun _ => OrderedMap.keysDistinct_nil
  connections := OrderedMap.keysDistinct_nil
  numbered := fun ws h => by cases h
  joined := fun ws h => by cases h

/-- A consistent gateway has a well-formed manager. -/
theorem Consistent.wellFormed (h : Consistent s) : s.manager.WellFormed :=
  ⟨h.distinct, h.occupied⟩

/-- Who is present is some member. -/
theorem present_iff (hdistinct : OrderedMap.KeysDistinct s.connections) {b u : String} :
    s.present b u = true ↔ ∃ ws, s.Member ws b u := by
  unfold present
  rw [List.any_eq_true]
  constructor
  · intro ⟨⟨ws, info⟩, hmem, h⟩
    obtain ⟨hjoined, hb, hu⟩ := of_decide_eq_true h
    exact ⟨ws, hjoined, info, (OrderedMap.get?_eq_some_iff hdistinct).mpr hmem, hb, hu⟩
  · intro ⟨ws, hjoined, info, hget, hb, hu⟩
    exact ⟨(ws, info), OrderedMap.mem_of_get? hget, decide_eq_true ⟨hjoined, hb, hu⟩⟩

/-! ## Each event -/

/-- A broadcast reaches the members of its board only. -/
theorem Consistent.broadcast (h : Consistent s) (boardId : String) (message : ServerMessage)
    (excludeWs : ℕ) : Consistent (s.broadcast boardId message excludeWs) := by
  refine ⟨⟨h.members, h.occupied, ?_, h.announced⟩, h.distinct, h.connections, h.numbered, h.joined⟩
  intro d hd
  rcases List.mem_append.mp hd with hold | hnew
  · exact h.delivered d hold
  · obtain ⟨ws, hws, hd⟩ := List.mem_filterMap.mp hnew
    obtain ⟨info, hget, rfl⟩ := Option.map_eq_some_iff.mp hd
    obtain ⟨-, u, hmem⟩ := (BoardManager.mem_recipients h.wellFormed).mp hws
    obtain ⟨-, info', hget', hb, -⟩ := (h.members boardId u ws).mp hmem
    obtain rfl := Option.some.inj (hget.symm.trans hget')
    exact hb.symm

/-- A new connection is on no board. -/
theorem Consistent.connect (h : Consistent s) (boardId userId : Option String)
    (authorized : Bool) (now : ℕ) :
    Consistent (s.connect limits boardId userId authorized now) := by
  have hnumber : Consistent { s with nextWs := s.nextWs + 1 } :=
    ⟨⟨h.members, h.occupied, h.delivered, h.announced⟩, h.distinct, h.connections,
      fun ws hws => (h.numbered ws hws).trans (Nat.lt_succ_self _),
      fun ws hws => (h.joined ws hws).trans (Nat.lt_succ_self _)⟩
  have hopen : ∀ info : ConnectionInfo, Consistent { s with
      connections := s.connections.set s.nextWs info, nextWs := s.nextWs + 1 } := by
    intro info
    have hmember : ∀ b u ws, Member { s with
        connections := s.connections.set s.nextWs info, nextWs := s.nextWs + 1 } ws b u ↔
          s.Member ws b u := by
      intro b u ws
      refine and_congr_right fun hjoined => ?_
      have hne : ws ≠ s.nextWs := (h.joined ws hjoined).ne
      dsimp only
      rw [OrderedMap.get?_set_ne _ _ hne]
    refine ⟨⟨fun b u ws => (h.members b u ws).trans (hmember b u ws).symm, h.occupied, h.delivered,
      h.announced⟩, h.distinct, h.connections.set _ _, ?_, hnumber.joined⟩
    intro ws hws
    by_cases heq : ws = s.nextWs
    · rw [heq]
      exact Nat.lt_succ_self _
    · have hws : ((s.connections.set s.nextWs info).get? ws).isSome = true := hws
      rw [OrderedMap.get?_set_ne _ _ heq] at hws
      exact (h.numbered ws hws).trans (Nat.lt_succ_self _)
  unfold Gateway.connect
  dsimp only
  split
  · split
    · exact hnumber
    · unfold Gateway.enter
      split
      · exact hnumber
      · exact hopen _
  · exact hnumber

/-- A join under the connection's own ids. -/
theorem Consistent.handleJoin (h : Consistent s) {ws : ℕ} {info : ConnectionInfo}
    (hget : s.connections.get? ws = some info) :
    Consistent (s.handleJoin ws info.boardId info.userId) := by
  have hwell := h.wellFormed.joinBoard info.boardId info.userId ws
  refine ⟨⟨?_, hwell.occupied, h.delivered, h.announced⟩, hwell.distinct, h.connections,
    h.numbered, ?_⟩
  · intro b u ws'
    refine BoardManager.mem_socketsOf_joinBoard.trans ?_
    rw [h.members b u ws']
    constructor
    · intro hcase
      rcases hcase with ⟨hjoined, hinfo⟩ | ⟨rfl, rfl, rfl⟩
      · exact ⟨List.mem_append_left _ hjoined, hinfo⟩
      · exact ⟨List.mem_append_right _ (List.mem_singleton_self _), info, hget, rfl, rfl⟩
    · intro ⟨hjoined, info', hget', hb, hu⟩
      rcases List.mem_append.mp hjoined with hold | hnew
      · exact Or.inl ⟨hold, info', hget', hb, hu⟩
      · obtain rfl := List.mem_singleton.mp hnew
        obtain rfl := Option.some.inj (hget.symm.trans hget')
        exact Or.inr ⟨rfl, hb.symm, hu.symm⟩
  · intro ws' hws'
    rcases List.mem_append.mp hws' with hold | hnew
    · exact h.joined ws' hold
    · rw [List.mem_singleton.mp hnew]
      exact h.numbered ws (by rw [hget]; rfl)

/-- The limiter changes neither board nor user of a connection. -/
theorem ids_countStroke (W C : ℕ) (info : ConnectionInfo) (now : ℕ) :
    (info.countStroke W C now).1.boardId = info.boardId ∧
      (info.countStroke W C now).1.userId = info.userId := by
  unfold ConnectionInfo.countStroke ConnectionInfo.rollWindow
  dsimp only
  split <;> exact ⟨rfl, rfl⟩

/-- A stroke moves no connection. -/
theorem Consistent.handleStroke (h : Consistent s) {ws : ℕ} {info : ConnectionInfo}
    (hget : s.connections.get? ws = some info) (stroke : Stroke) (now : ℕ) :
    Consistent (s.handleStroke limits ws info stroke now) := by
  have hcount : ∀ info' : ConnectionInfo, info'.boardId = info.boardId →
      info'.userId = info.userId → ∀ submissions, Consistent { s with
        connections := s.connections.set ws info', submissions := submissions } := by
    intro info' hb hu submissions
    refine ⟨⟨?_, h.occupied, h.delivered, h.announced⟩, h.distinct, h.connections.set _ _, ?_,
      h.joined⟩
    · intro b u ws'
      rw [h.members b u ws']
      refine and_congr_right fun _ => ?_
      dsimp only
      by_cases heq : ws' = ws
      · subst heq
        rw [OrderedMap.get?_set_self, hget]
        simp [hb, hu]
      · rw [OrderedMap.get?_set_ne _ _ heq]
    · intro ws' hws'
      by_cases heq : ws' = ws
      · rw [heq]
        exact h.numbered ws (by rw [hget]; rfl)
      · have hws' : ((s.connections.set ws info').get? ws').isSome = true := hws'
        rw [OrderedMap.get?_set_ne _ _ heq] at hws'
        exact h.numbered ws' hws'
  have hids := ids_countStroke limits.rateLimitWindowMs limits.strokeRateLimitPerSec info now
  unfold Gateway.handleStroke
  split
  · exact h
  · dsimp only
    split
    · exact hcount _ hids.1 hids.2 _
    · exact hcount _ hids.1 hids.2 _

/-- The members once a socket is closed. -/
theorem member_erase {ws ws' : ℕ} {b u : String} :
    Member { s with connections := s.connections.erase ws } ws' b u ↔
      ws' ≠ ws ∧ s.Member ws' b u := by
  unfold Member
  dsimp only
  by_cases heq : ws' = ws
  · subst heq
    rw [OrderedMap.get?_erase_self]
    simp
  · rw [OrderedMap.get?_erase_ne _ heq]
    simp [heq]

/-- `leaveBoard` reports a departure exactly when one is due. -/
theorem Consistent.departure (h : Consistent s) {ws : ℕ} {info : ConnectionInfo}
    (hget : s.connections.get? ws = some info) :
    s.departure ws info =
      if (s.manager.leaveBoard info.boardId info.userId ws).2 then [(info.boardId, info.userId)]
      else [] := by
  have hself : ws ∈ s.manager.socketsOf info.boardId info.userId ↔ ws ∈ s.joined := by
    rw [h.members]
    exact ⟨And.left, fun hjoined => ⟨hjoined, info, hget, rfl, rfl⟩⟩
  have hothers : (∀ x ∈ s.manager.socketsOf info.boardId info.userId, x = ws) ↔
      present { s with connections := s.connections.erase ws } info.boardId info.userId =
        false := by
    rw [← Bool.not_eq_true, present_iff (h.connections.erase ws)]
    constructor
    · intro hall ⟨x, hx⟩
      obtain ⟨hne, hmember⟩ := member_erase.mp hx
      exact hne (hall x ((h.members _ _ x).mpr hmember))
    · intro hnone x hx
      by_contra hne
      exact hnone ⟨x, member_erase.mpr ⟨hne, (h.members _ _ x).mp hx⟩⟩
  unfold Gateway.departure
  dsimp only
  simp only [BoardManager.leaveBoard_snd h.wellFormed, hself, hothers]

/-- A closed connection has left. -/
theorem Consistent.closeSocket (h : Consistent s) {ws : ℕ} {info : ConnectionInfo}
    (hget : s.connections.get? ws = some info) : Consistent (s.closeSocket ws info) := by
  have hwell := h.wellFormed.leaveBoard info.boardId info.userId ws
  have hmembers : ∀ b u ws',
      ws' ∈ (s.manager.leaveBoard info.boardId info.userId ws).1.socketsOf b u ↔
        Member { s with connections := s.connections.erase ws } ws' b u := by
    intro b u ws'
    rw [BoardManager.mem_socketsOf_leaveBoard, h.members, member_erase]
    constructor
    · intro ⟨hmember, hno⟩
      refine ⟨?_, hmember⟩
      intro heq
      obtain ⟨-, info', hget', hb, hu⟩ := hmember
      rw [heq] at hget'
      obtain rfl := Option.some.inj (hget.symm.trans hget')
      exact hno ⟨heq, hb.symm, hu.symm⟩
    · intro ⟨hne, hmember⟩
      exact ⟨hmember, fun hno => hne hno.1⟩
  have hclosed : ∀ left due, left = due → Consistent { s with
      manager := (s.manager.leaveBoard info.boardId info.userId ws).1
      connections := s.connections.erase ws
      left := left
      due := due } := by
    intro left due hsame
    refine ⟨⟨hmembers, hwell.occupied, h.delivered, hsame⟩, hwell.distinct,
      h.connections.erase ws, ?_, h.joined⟩
    intro ws' hws'
    have hws' : ((s.connections.erase ws).get? ws').isSome = true := hws'
    by_cases heq : ws' = ws
    · rw [heq, OrderedMap.get?_erase_self] at hws'
      cases hws'
    · rw [OrderedMap.get?_erase_ne _ heq] at hws'
      exact h.numbered ws' hws'
  have hdeparture := h.departure hget
  unfold Gateway.closeSocket
  dsimp only
  split
  · next hleft =>
      rw [if_pos hleft] at hdeparture
      rw [hdeparture]
      have hsame : s.left ++ [(info.boardId, info.userId)] =
          s.due ++ [(info.boardId, info.userId)] := by rw [h.announced]
      exact (hclosed _ _ hsame).broadcast info.boardId (.userLeft info.userId) ws
  · next hstays =>
      rw [if_neg hstays] at hdeparture
      rw [hdeparture]
      exact hclosed s.left _ (by rw [h.announced, List.append_nil])

/-- **Every event but a join under other ids** keeps the invariant. -/
theorem Consistent.step {ev : Event} (h : Consistent s) (hok : s.JoinsOwn ev)
    (hnext : next limits s ev = some s') : Consistent s' := by
  cases ev with
  | connect boardId userId authorized now =>
      obtain rfl := Option.some.inj hnext
      exact h.connect boardId userId authorized now
  | join ws boardId userId =>
      obtain ⟨hopen, hnext⟩ := Option.ite_none_right_eq_some.mp hnext
      obtain rfl := Option.some.inj hnext
      obtain ⟨info, hget⟩ := Option.isSome_iff_exists.mp hopen
      obtain ⟨rfl, rfl⟩ := hok info hget
      exact h.handleJoin hget
  | acknowledge k =>
      obtain ⟨j, -, rfl⟩ := Option.map_eq_some_iff.mp hnext
      have hdone : Consistent { s with joins := s.joins.eraseIdx k } :=
        ⟨⟨h.members, h.occupied, h.delivered, h.announced⟩, h.distinct, h.connections, h.numbered,
          h.joined⟩
      unfold Gateway.acknowledge
      dsimp only
      split
      · exact hdone
      · exact hdone.broadcast _ _ _
  | stroke ws stroke now =>
      obtain ⟨info, hget, rfl⟩ := Option.map_eq_some_iff.mp hnext
      exact h.handleStroke hget stroke now
  | submitted k success =>
      obtain ⟨sub, -, rfl⟩ := Option.map_eq_some_iff.mp hnext
      have hdone : Consistent { s with submissions := s.submissions.eraseIdx k } :=
        ⟨⟨h.members, h.occupied, h.delivered, h.announced⟩, h.distinct, h.connections, h.numbered,
          h.joined⟩
      unfold Gateway.submitted
      dsimp only
      split
      · exact hdone.broadcast _ _ _
      · exact hdone
  | close ws =>
      obtain ⟨info, hget, rfl⟩ := Option.map_eq_some_iff.mp hnext
      exact h.closeSocket hget

/-- A join under other ids puts its socket where it does not belong. -/
theorem not_boardsMatch {ev : Event} (hno : ¬ s.JoinsOwn ev)
    (hnext : next limits s ev = some s') : ¬ BoardsMatch s' := by
  cases ev with
  | join ws boardId userId =>
      obtain ⟨-, hnext⟩ := Option.ite_none_right_eq_some.mp hnext
      obtain rfl := Option.some.inj hnext
      unfold JoinsOwn at hno
      push Not at hno
      obtain ⟨info, hget, hids⟩ := hno
      intro hmatch
      have hmem : ws ∈ (s.handleJoin ws boardId userId).manager.socketsOf boardId userId :=
        BoardManager.mem_socketsOf_joinBoard.mpr (Or.inr ⟨rfl, rfl, rfl⟩)
      obtain ⟨-, info', hget', hb, hu⟩ := (hmatch.members boardId userId ws).mp hmem
      obtain rfl := Option.some.inj (hget.symm.trans hget')
      exact hids hb.symm hu.symm
  | _ => exact absurd trivial hno

/-- **Board membership equals live connections** in every state of a run if and only
if every join message of the run carries the ids of its own connection. -/
theorem boards_match (limits : GatewayLimits) (evs : List Event)
    (h : Runs.exec (next limits) start evs = some s') :
    Runs.Always (next limits) BoardsMatch start evs ↔
      Runs.ExecOk (next limits) JoinsOwn start evs := by
  apply Runs.always_iff_execOk (I := Consistent) (E := fun _ => True)
    (fun _ h => h.toBoardsMatch)
  · intro s ev s' hs _ hok hnext
    exact hs.step hok hnext
  · intro s ev s' _ _ hno hnext
    exact not_boardsMatch hno hnext
  · exact fun _ _ => trivial
  · exact consistent_start
  · exact h

/-- The limits of the default configuration. -/
def defaultLimits : GatewayLimits := ⟨50, 1000, 60⟩

/-- Ann opens two tabs on a board, joins on both, and closes them. -/
def twoTabs : List Event :=
  [.connect (some "b") (some "ann") true 0, .connect (some "b") (some "ann") true 1,
    .join 0 "b" "ann", .join 1 "b" "ann", .close 0, .close 1]

/-- The boards match all along. -/
theorem boards_match_two_tabs : Runs.Always (next defaultLimits) BoardsMatch start twoTabs := by
  have hrun : (Runs.exec (next defaultLimits) start twoTabs).isSome = true := by decide
  obtain ⟨s, hs⟩ := Option.isSome_iff_exists.mp hrun
  refine (boards_match defaultLimits twoTabs hs).mpr ?_
  refine ⟨trivial, fun s₁ h₁ => ⟨trivial, fun s₂ h₂ => ⟨?_, fun s₃ h₃ => ⟨?_, fun _ _ =>
    ⟨trivial, fun _ _ => ⟨trivial, fun _ _ => trivial⟩⟩⟩⟩⟩⟩
  · obtain rfl := Option.some.inj h₁
    obtain rfl := Option.some.inj h₂
    intro info hget
    obtain rfl : (⟨"b", "ann", 0, 0⟩ : ConnectionInfo) = info := Option.some.inj hget
    exact ⟨rfl, rfl⟩
  · obtain rfl := Option.some.inj h₁
    obtain rfl := Option.some.inj h₂
    obtain rfl := Option.some.inj h₃
    intro info hget
    obtain rfl : (⟨"b", "ann", 0, 1⟩ : ConnectionInfo) = info := Option.some.inj hget
    exact ⟨rfl, rfl⟩

/-- Ann, admitted to board `b`, joins the board `c` and closes her tab. -/
def strayJoin : List Event :=
  [.connect (some "b") (some "ann") true 0, .join 0 "c" "ann", .close 0]

/-- **A closed socket on a board:** after a join under another board's id, the socket
stays on that board for good, and no departure is announced. -/
theorem boards_mismatch :
    ¬ Runs.Always (next defaultLimits) BoardsMatch start strayJoin ∧
      (Runs.exec (next defaultLimits) start strayJoin).map (fun s =>
        (s.connections, s.manager.socketsOf "c" "ann", s.left)) = some ([], [0], []) := by
  have hrun : (Runs.exec (next defaultLimits) start strayJoin).map (fun s =>
      (s.connections, s.manager.socketsOf "c" "ann", s.left)) = some ([], [0], []) := by
    decide
  refine ⟨?_, hrun⟩
  obtain ⟨s, hs, hshape⟩ := Option.map_eq_some_iff.mp hrun
  obtain ⟨hclosed, hsockets, -⟩ : s.connections = [] ∧ s.manager.socketsOf "c" "ann" = [0] ∧
      s.left = [] := by
    simpa using hshape
  intro halways
  have hmem : 0 ∈ s.manager.socketsOf "c" "ann" := by
    rw [hsockets]
    exact List.mem_singleton_self 0
  obtain ⟨-, info, hget, -⟩ := ((halways.last hs).members "c" "ann" 0).mp hmem
  rw [hclosed] at hget
  cases hget

/-! ## The user limit -/

end Gateway

end QuorumCanvas
