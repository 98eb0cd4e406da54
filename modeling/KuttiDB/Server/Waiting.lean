/- # KuttiDB.Server.Waiting -- where a deferred wait goes

A registered wait is in exactly one place: registered, on a wake list, in the hand of the loop that
drains it, answered, or dropped with its connection. One contract carries that count and the flag
`wait_registered` of the connection:

* `waits_answered_once`: every wait is answered at most once and none is lost, and a request that
  removes a lease leaves no wait of the key behind. The last part fails for a management completion
  whose write fails: it removes the lease and wakes nobody.
* `wait_flag_exact`: a connection with a waiter or a wake node has its flag set, and a closed one has
  neither. The flag is not cleared when the loop answers, so the converse holds only of connections
  that have not been answered yet.
-/
import KuttiDB.Server.Sections

namespace KuttiDB.Server

open KuttiDB.Theory

set_option autoImplicit false

/-! ## The contract -/

/-- A waiter or a queued wake node of the connection. -/
def Flight.Pending (s : Flight) (conn : ConnId) : Prop :=
  (∃ w ∈ s.waiters, w.conn = conn) ∨ ∃ n ∈ s.wakes, n.conn = conn

/-- How often a wait is somewhere. -/
def Flight.tally (s : Flight) (k : Nat) : Nat :=
  (s.waiters.map Waiter.ticket).count k + (s.wakes.map WaiterWake.ticket).count k +
    (s.trace.inHand.map WaiterWake.ticket).count k + s.trace.answered.count k +
    s.trace.dropped.count k

/-- `only` are the connections that no drain answers; `settled` says that no completion fails under
waiters. -/
structure WaitsPlaced (only : ConnId → Prop) (settled : Prop) (s : Flight) : Prop where
  waiting : ∀ w ∈ s.waiters, s.registered w.conn = true ∧ s.dead w.conn = false
  woken : ∀ n ∈ s.wakes, s.registered n.conn = true ∧ s.dead n.conn = false
  inHand : ∀ n ∈ s.trace.inHand, s.dead n.conn = false
  unique : (s.waiters.map Waiter.conn).Nodup
  pending : ∀ c, only c → s.registered c = true → s.Pending c
  placed : ∀ k, s.tally k = if k < s.trace.tickets then 1 else 0
  left : settled → s.trace.left = []

/-- The nodes that a loop has in hand. -/
def Flight.hand (s : Flight) (l : Nat) : List WaiterWake :=
  s.trace.inHand.filter (fun n => n.conn.loop = l)

/-- A worker changes flags and hands of its own loop only, and registers waits under new numbers. -/
structure WaitsMay (only : ConnId → Prop) (settled : Prop) (t : Worker) (s s' : Flight) : Prop where
  inv : WaitsPlaced only settled s'
  flags : ∀ c : ConnId, t ≠ .loop c.loop →
    s'.registered c = s.registered c ∧ s'.dead c = s.dead c
  hands : ∀ l, t ≠ .loop l → s'.hand l = s.hand l
  tickets : s.trace.tickets ≤ s'.trace.tickets
  fresh : ∀ w ∈ s'.waiters, w ∈ s.waiters ∨ s.trace.tickets ≤ w.ticket

/-- Between its calls a loop has nothing in hand. -/
def EmptyHand : Worker → Flight → Prop
  | .loop l, s => s.hand l = []
  | _, _ => True

def waits (only : ConnId → Prop) (settled : Prop) : Contract Worker Flight where
  inv := WaitsPlaced only settled
  rest := EmptyHand
  may := WaitsMay only settled
  inv_step := fun _ may => may.inv
  rest_step := by
    intro t u s s' ne _ rest may
    cases t with
    | loop l => exact (may.hands l (Ne.symm ne)).trans rest
    | admin owner => trivial
    | house => trivial

/-- The conditions that the two parameters stand for. -/
def WaitSites (only : ConnId → Prop) (settled : Prop) : Site → Flight → Prop
  | .remove _ key true, s => settled → ∀ w ∈ s.waiters, w.key ≠ key
  | .drain l, s => ∀ n ∈ s.wakes, n.conn.loop = l → ¬ only n.conn
  | _, _ => True

variable {only : ConnId → Prop} {settled : Prop} {t : Worker} {s s' : Flight}

theorem WaitsPlaced.tickets_nodup (inv : WaitsPlaced only settled s) :
    (s.waiters.map Waiter.ticket).Nodup := by
  rw [List.nodup_iff_count_le_one]
  intro k
  have once := inv.placed k
  unfold Flight.tally at once
  split at once <;> omega

theorem WaitsPlaced.ticket_lt (inv : WaitsPlaced only settled s) {w : Waiter} (mem : w ∈ s.waiters) :
    w.ticket < s.trace.tickets := by
  have here : 0 < (s.waiters.map Waiter.ticket).count w.ticket :=
    List.count_pos_iff.2 (List.mem_map_of_mem mem)
  have once := inv.placed w.ticket
  unfold Flight.tally at once
  split at once
  · assumption
  · omega

/-! ## Sections that leave the waits alone -/

/-- What the contract reads. -/
def Flight.waitPart (s : Flight) :=
  (s.waiters, s.wakes, s.registered, s.dead, s.trace.tickets, s.trace.inHand, s.trace.answered,
    s.trace.dropped, s.trace.left)

theorem waits_idle {site : Site} {effect : Flight → Flight}
    (same : ∀ s, (effect s).waitPart = s.waitPart) :
    (waits only settled).Fine (WaitSites only settled) t site effect := by
  intro s inv rest _
  have same := same s
  simp only [Flight.waitPart, Prod.mk.injEq] at same
  obtain ⟨waiters, wakes, registered, dead, tickets, inHand, answered, dropped, left⟩ := same
  have hands : ∀ l, (effect s).hand l = s.hand l := fun l => by rw [Flight.hand, inHand]; rfl
  refine ⟨⟨⟨?_, ?_, ?_, ?_, ?_, ?_, ?_⟩, ?_, fun l _ => hands l, tickets.ge, ?_⟩, ?_⟩
  · rw [waiters, registered, dead]
    exact inv.waiting
  · rw [wakes, registered, dead]
    exact inv.woken
  · rw [inHand, dead]
    exact inv.inHand
  · rw [waiters]
    exact inv.unique
  · unfold Flight.Pending
    rw [waiters, wakes, registered]
    exact inv.pending
  · unfold Flight.tally
    rw [waiters, wakes, inHand, answered, dropped, tickets]
    exact inv.placed
  · rw [left]
    exact inv.left
  · rw [registered, dead]
    exact fun _ _ => ⟨rfl, rfl⟩
  · rw [waiters]
    exact fun w mem => .inl mem
  · cases t with
    | loop l => exact (hands l).trans rest
    | admin owner => trivial
    | house => trivial

theorem waits_refl (t : Worker) : (waits only settled).Fine (WaitSites only settled) t .plain id :=
  waits_idle fun _ => rfl

/-! ## Waking -/

theorem count_split {α : Type} (f : α → Nat) (p : α → Bool) (xs : List α) (k : Nat) :
    (xs.map f).count k =
      ((xs.filter p).map f).count k + ((xs.filter (fun x => !p x)).map f).count k := by
  rw [← List.count_append, ← List.map_append]
  exact (((List.filter_append_perm p xs).map f).count_eq k).symm

/-- Waiters that move to the wake lists under their own number and connection. -/
theorem WaitsPlaced.rouse (inv : WaitsPlaced only settled s) (chosen : Waiter → Bool)
    (node : Waiter → WaiterWake) (conn : ∀ w, (node w).conn = w.conn)
    (ticket : ∀ w, (node w).ticket = w.ticket) :
    WaitsPlaced only settled (s.rouse chosen node) := by
  refine ⟨fun w mem => inv.waiting w (List.mem_of_mem_filter mem), fun n mem => ?_, inv.inHand,
    inv.unique.sublist (List.filter_sublist.map _), fun c mine flag => ?_, fun k => ?_, inv.left⟩
  · rcases List.mem_append.1 mem with new | old
    · obtain ⟨w, roused, rfl⟩ := List.mem_map.1 new
      rw [conn]
      exact inv.waiting w (List.mem_of_mem_filter roused)
    · exact inv.woken n old
  · rcases inv.pending c mine flag with ⟨w, mem, here⟩ | ⟨n, mem, here⟩
    · by_cases roused : chosen w = true
      · refine .inr ⟨node w, List.mem_append_left _ (List.mem_map_of_mem ?_), (conn w).trans here⟩
        exact List.mem_filter.2 ⟨mem, roused⟩
      · exact .inl ⟨w, List.mem_filter.2 ⟨mem, by simpa using roused⟩, here⟩
    · exact .inr ⟨n, List.mem_append_right _ mem, here⟩
  · have parts := count_split Waiter.ticket chosen s.waiters k
    have moved : ((s.waiters.filter chosen).map node).map WaiterWake.ticket =
        (s.waiters.filter chosen).map Waiter.ticket := by
      rw [List.map_map]
      exact List.map_congr_left (fun w _ => ticket w)
    show Flight.tally _ k = if k < s.trace.tickets then 1 else 0
    rw [← inv.placed k]
    simp only [Flight.tally, Flight.rouse, List.map_append, List.count_append, moved]
    omega

theorem waits_fine_rouse {effect : Flight → Flight} (chosen : Waiter → Bool)
    (node : Waiter → WaiterWake) (conn : ∀ w, (node w).conn = w.conn)
    (ticket : ∀ w, (node w).ticket = w.ticket)
    (same : ∀ s, effect s = { s.rouse chosen node with
      negatives := (effect s).negatives, stale := (effect s).stale }) :
    (waits only settled).Fine (WaitSites only settled) t .plain effect := by
  intro s inv rest _
  have roused : WaitsPlaced only settled (s.rouse chosen node) := inv.rouse chosen node conn ticket
  rw [same s]
  refine ⟨⟨⟨roused.waiting, roused.woken, roused.inHand, roused.unique, roused.pending,
    roused.placed, roused.left⟩, fun _ _ => ⟨rfl, rfl⟩, fun _ _ => rfl, le_rfl,
    fun w mem => .inl (List.mem_of_mem_filter mem)⟩, ?_⟩
  cases t with
  | loop l => exact rest
  | admin owner => trivial
  | house => trivial

theorem waits_fine_wake (key : Key) (state : SfState) :
    (waits only settled).Fine (WaitSites only settled) t .plain (sfWakeWaiters key state) :=
  waits_fine_rouse (fun w => w.key = key) (fun w => ⟨w.conn, some key, state, w.ticket⟩)
    (fun _ => rfl) (fun _ => rfl) (fun _ => rfl)

/-! ## Registering and closing -/

theorem waits_register {conn : ConnId} (key : Key) (timeoutMs : Nat) (inv : WaitsPlaced only settled s)
    (free : s.registered conn = false) (alive : s.dead conn = false) :
    WaitsMay only settled (.loop conn.loop) s (register conn key timeoutMs s) := by
  have absent : ∀ w ∈ s.waiters, w.conn ≠ conn := by
    intro w mem same
    have flag := (inv.waiting w mem).1
    rw [same, free] at flag
    cases flag
  have flags : ∀ c, s.registered c = true → Function.update s.registered conn true c = true := by
    intro c flag
    by_cases same : c = conn
    · rw [same, Function.update_self]
    · rw [Function.update_of_ne same, flag]
  refine ⟨⟨?_, fun n mem => ⟨flags _ (inv.woken n mem).1, (inv.woken n mem).2⟩, inv.inHand, ?_, ?_, ?_,
    inv.left⟩, fun c other => ?_, fun _ _ => rfl, Nat.le_succ _, ?_⟩
  · rintro w (_ | ⟨_, mem⟩)
    · exact ⟨Function.update_self .., alive⟩
    · exact ⟨flags _ (inv.waiting w mem).1, (inv.waiting w mem).2⟩
  · refine List.nodup_cons.2 ⟨fun mem => ?_, inv.unique⟩
    obtain ⟨w, there, same⟩ := List.mem_map.1 mem
    exact absent w there same
  · intro c mine flag
    by_cases same : c = conn
    · exact .inl ⟨_, List.mem_cons_self, same.symm⟩
    · have old : s.registered c = true := by
        simpa [register, Function.update_of_ne same] using flag
      exact (inv.pending c mine old).imp_left
        (fun ⟨w, mem, here⟩ => ⟨w, List.mem_cons_of_mem _ mem, here⟩)
  · intro k
    have once := inv.placed k
    simp only [Flight.tally, register, List.map_cons, List.count_cons] at once ⊢
    by_cases new : s.trace.tickets = k
    · subst new
      simp at once ⊢
      omega
    · have same : (k < s.trace.tickets + 1) = (k < s.trace.tickets) := by
        rw [eq_iff_iff]
        omega
      simp only [new, beq_iff_eq, if_false, same]
      omega
  · have ne : c ≠ conn := fun same => other (by rw [same])
    exact ⟨Function.update_of_ne ne .., rfl⟩
  · rintro w (_ | ⟨_, mem⟩)
    · exact .inr le_rfl
    · exact .inl mem

theorem waits_wait (conn : ConnId) (key : Key) (timeoutMs : Nat) :
    (waits only settled).Always (WaitSites only settled) (.loop conn.loop)
      (waitForKey conn key timeoutMs) := by
  intro s inv rest
  refine ⟨EmptyHand (.loop conn.loop), Contract.stable_rest _ _, rest, fun s inv rest _ =>
    ⟨(waits_refl (.loop conn.loop) s inv rest trivial).1, ?_⟩⟩
  dsimp only [id]
  split
  · exact rest
  rename_i unset
  split
  · exact rest
  have flags : s.dead conn = false ∧ s.registered conn = false := by simpa using unset
  refine .knowing (fun s => s.dead conn = false ∧ s.registered conn = false)
    (fun u s s' ne _ know may => ?_) flags rest (fun s inv rest know _ => ?_)
  · obtain ⟨registered, dead⟩ := may.flags conn (Ne.symm ne)
    exact ⟨dead.trans know.1, registered.trans know.2⟩
  have pruning : (waits only settled).Fine (WaitSites only settled) (.loop conn.loop) .plain
      (prune key) := waits_idle fun _ => rfl
  have pruned : WaitsMay only settled (.loop conn.loop) s (prune key s) :=
    (pruning s inv rest trivial).1
  have may : WaitsMay only settled (.loop conn.loop) s (sfResolveOrRegister conn key timeoutMs s) := by
    unfold sfResolveOrRegister
    split
    · have step := waits_register key timeoutMs pruned.inv know.2 know.1
      exact ⟨step.inv, step.flags, step.hands, step.tickets, step.fresh⟩
    · exact pruned
  have emptied : EmptyHand (.loop conn.loop) (sfResolveOrRegister conn key timeoutMs s) := by
    unfold sfResolveOrRegister
    split <;> exact rest
  refine ⟨may, ?_⟩
  split
  · exact emptied
  · exact emptied
  · exact emptied
  · refine Contract.Always.step (waits_refl _) (fun s => ?_) _ may.inv emptied
    split <;> exact .done _

theorem waits_close (conn : ConnId) :
    (waits only settled).Fine (WaitSites only settled) (.loop conn.loop) .plain (closeConn conn) := by
  intro s inv rest _
  have handsOff : ∀ n ∈ s.trace.inHand, n.conn ≠ conn := by
    intro n mem same
    have here : n ∈ s.hand conn.loop := List.mem_filter.2 ⟨mem, by simp [same]⟩
    rw [show s.hand conn.loop = [] from rest] at here
    cases here
  have others : ∀ c : ConnId, Worker.loop conn.loop ≠ .loop c.loop → c ≠ conn :=
    fun c away same => away (by rw [same])
  -- what is left belongs to other connections
  have after : ∀ (waiters : List Waiter) (wakes : List WaiterWake) (registered : ConnId → Bool)
      (dropped : List Nat), waiters.Sublist s.waiters → (∀ w ∈ waiters, w.conn ≠ conn) →
      (∀ n ∈ wakes, n ∈ s.wakes ∧ n.conn ≠ conn) → (∀ w ∈ s.waiters, w.conn ≠ conn → w ∈ waiters) →
      (∀ n ∈ s.wakes, n.conn ≠ conn → n ∈ wakes) → registered conn = false →
      (∀ c, c ≠ conn → registered c = s.registered c) →
      (∀ k, (waiters.map Waiter.ticket).count k + (wakes.map WaiterWake.ticket).count k +
        dropped.count k = (s.waiters.map Waiter.ticket).count k +
          (s.wakes.map WaiterWake.ticket).count k + s.trace.dropped.count k) →
      WaitsMay only settled (.loop conn.loop) s { s with
        waiters, wakes, registered
        dead := Function.update s.dead conn true
        trace := { s.trace with dropped } } := by
    intro waiters wakes registered dropped sub away wakesAway keep keepWakes unset same counts
    have flags : ∀ c, c ≠ conn → s.registered c = true ∧ s.dead c = false →
        registered c = true ∧ Function.update s.dead conn true c = false :=
      fun c ne both => ⟨(same c ne).trans both.1, (Function.update_of_ne ne ..).trans both.2⟩
    refine ⟨⟨fun w mem => flags _ (away w mem) (inv.waiting w (sub.subset mem)),
      fun n mem => flags _ (wakesAway n mem).2 (inv.woken n (wakesAway n mem).1),
      fun n mem => (Function.update_of_ne (handsOff n mem) ..).trans (inv.inHand n mem),
      inv.unique.sublist (sub.map _), fun c mine flag => ?_, fun k => ?_, inv.left⟩,
      fun c away => ⟨same c (others c away), Function.update_of_ne (others c away) ..⟩,
      fun _ _ => rfl, le_rfl, fun w mem => .inl (sub.subset mem)⟩
    · have ne : c ≠ conn := fun here => by
        have flag : registered c = true := flag
        rw [here, unset] at flag
        cases flag
      rcases inv.pending c mine ((same c ne).symm.trans flag) with ⟨w, mem, rfl⟩ | ⟨n, mem, rfl⟩
      · exact .inl ⟨w, keep w mem ne, rfl⟩
      · exact .inr ⟨n, keepWakes n mem ne, rfl⟩
    · have once := inv.placed k
      have count := counts k
      simp only [Flight.tally] at once ⊢
      omega
  refine ⟨?_, ?_⟩
  · unfold closeConn
    split
    · rw [eraseP_eq_dropKey Waiter.conn inv.unique]
      refine after _ _ _ _ List.filter_sublist (fun w mem => ((mem_dropKey _).1 mem).2)
        (fun n mem => ⟨List.mem_of_mem_filter mem, by simpa using (List.mem_filter.1 mem).2⟩)
        (fun w mem ne => (mem_dropKey _).2 ⟨mem, ne⟩)
        (fun n mem ne => List.mem_filter.2 ⟨mem, by simpa using ne⟩) (Function.update_self ..)
        (fun c ne => Function.update_of_ne ne ..) (fun k => ?_)
      have waiters := count_split Waiter.ticket (fun w => w.conn = conn) s.waiters k
      have wakes := count_split WaiterWake.ticket (fun n => n.conn = conn) s.wakes k
      simp only [dropKey, List.count_append, ne_eq, decide_not] at waiters wakes ⊢
      omega
    · rename_i unset
      have free : s.registered conn = false := by simpa using unset
      refine after s.waiters s.wakes s.registered s.trace.dropped (.refl _) (fun w mem same => ?_)
        (fun n mem => ⟨mem, fun same => ?_⟩) (fun w mem _ => mem) (fun n mem _ => mem) free
        (fun _ _ => rfl) (fun _ => rfl)
      · have flag := (inv.waiting w mem).1
        rw [same, free] at flag
        cases flag
      · have flag := (inv.woken n mem).1
        rw [same, free] at flag
        cases flag
  · unfold closeConn
    split <;> exact rest

/-! ## Draining -/

theorem mem_inHand_of_hand {l : Nat} {n : WaiterWake} (mem : n ∈ s.hand l) :
    n ∈ s.trace.inHand ∧ n.conn.loop = l := by
  simpa [Flight.hand] using mem

theorem waits_take {l : Nat} (inv : WaitsPlaced only settled s)
    (met : WaitSites only settled (.drain l) s) :
    WaitsMay only settled (.loop l) s (takeWakes l s) := by
  refine ⟨⟨inv.waiting, fun n mem => inv.woken n (List.mem_of_mem_filter mem), fun n mem => ?_,
    inv.unique, fun c mine flag => ?_, fun k => ?_, inv.left⟩, fun _ _ => ⟨rfl, rfl⟩, fun l' other => ?_,
    le_rfl, fun w mem => .inl mem⟩
  · rcases List.mem_append.1 mem with taken | old
    · exact (inv.woken n (List.mem_of_mem_filter taken)).2
    · exact inv.inHand n old
  · rcases inv.pending c mine flag with waiter | ⟨n, mem, rfl⟩
    · exact .inl waiter
    · have elsewhere : n.conn.loop ≠ l := fun here => met n mem here mine
      exact .inr ⟨n, List.mem_filter.2 ⟨mem, by simpa using elsewhere⟩, rfl⟩
  · have parts := count_split WaiterWake.ticket (fun n => n.conn.loop = l) s.wakes k
    show Flight.tally _ k = if k < s.trace.tickets then 1 else 0
    rw [← inv.placed k]
    simp only [Flight.tally, takeWakes, List.map_append, List.count_append, ne_eq, decide_not]
      at parts ⊢
    omega
  · have apart : ∀ n ∈ s.wakes, n.conn.loop = l → ¬ n.conn.loop = l' :=
      fun n _ here there => other (by rw [← here, there])
    simpa [Flight.hand, takeWakes, List.filter_append, List.filter_filter] using
      fun n mem there here => apart n mem here there

theorem waits_answer {l : Nat} {n : WaiterWake} (inv : WaitsPlaced only settled s)
    (mem : n ∈ s.trace.inHand) (here : n.conn.loop = l) :
    WaitsMay only settled (.loop l) s (answerWake n s) := by
  have alive : s.dead n.conn = false := inv.inHand n mem
  have answered : answerWake n s = { s with trace := { s.trace with
      inHand := s.trace.inHand.erase n, answered := n.ticket :: s.trace.answered } } := by
    simp [answerWake, alive]
  rw [answered]
  refine ⟨⟨inv.waiting, inv.woken, fun m kept => inv.inHand m (List.mem_of_mem_erase kept), inv.unique,
    inv.pending, fun k => ?_, inv.left⟩, fun _ _ => ⟨rfl, rfl⟩, fun l' other => ?_, le_rfl,
    fun w old => .inl old⟩
  · have split := ((List.perm_cons_erase mem).map WaiterWake.ticket).count_eq k
    show Flight.tally _ k = if k < s.trace.tickets then 1 else 0
    rw [← inv.placed k]
    simp only [Flight.tally, List.map_cons, List.count_cons] at split ⊢
    omega
  · have away : n ∉ s.hand l' := fun mine => other (by rw [← here, (mem_inHand_of_hand mine).2])
    show (s.trace.inHand.erase n).filter _ = s.hand l'
    rw [← List.erase_filter]
    exact List.erase_of_not_mem away

theorem waits_answerEach (l : Nat) : ∀ (nodes : List WaiterWake) (s : Flight), s.hand l = nodes →
    (waits only settled).Secure (WaitSites only settled) (.loop l) (answerEach nodes) s
  | [], _, empty => empty
  | n :: rest, s, full => by
      refine ⟨fun s => s.hand l = n :: rest, fun u s s' ne _ know may => ?_, full,
        fun s inv know _ => ?_⟩
      · exact (may.hands l (Ne.symm ne)).trans know
      · obtain ⟨mem, here⟩ : n ∈ s.trace.inHand ∧ n.conn.loop = l :=
          mem_inHand_of_hand (know ▸ List.mem_cons_self)
        refine ⟨waits_answer inv mem here, waits_answerEach l rest _ ?_⟩
        have erased : (answerWake n s).hand l = (s.hand l).erase n := by
          unfold Flight.hand answerWake
          split <;> exact List.erase_filter.symm
        rw [erased, know, List.erase_cons_head]

theorem waits_drain (l : Nat) :
    (waits only settled).Always (WaitSites only settled) (.loop l) (sfDrainWakes l) := by
  intro s inv rest
  refine ⟨EmptyHand (.loop l), Contract.stable_rest _ _, rest, fun s inv rest met =>
    ⟨waits_take inv met, waits_answerEach l _ _ ?_⟩⟩
  have empty : s.hand l = [] := rest
  simp only [Flight.hand, takeWakes, List.filter_append, List.filter_filter, Bool.and_self] at empty ⊢
  rw [empty, List.append_nil]

/-! ## Removing a lease -/

/-- The waits that lost their lease, and what is known of those still registered. -/
def Owes (Q : Waiter → Prop) (owed : List Nat) (s : Flight) : Prop :=
  (∀ k ∈ owed, k < s.trace.tickets) ∧ ∀ w ∈ s.waiters, w.ticket ∈ owed → Q w

theorem stable_owes (Q : Waiter → Prop) (owed : List Nat) :
    (waits only settled).Stable t (fun s => settled → Owes Q owed s) := by
  intro u s s' _ _ know may yes
  obtain ⟨below, left⟩ := know yes
  refine ⟨fun k mem => (below k mem).trans_le may.tickets, fun w mem mine => ?_⟩
  rcases may.fresh w mem with old | new
  · exact left w old mine
  · exact absurd (below _ mine) (Nat.not_lt.2 new)

theorem waits_settle {owed : List Nat} {next : Handler}
    (go : (waits only settled).Always (WaitSites only settled) t next) (rest : EmptyHand t s)
    (know : settled → Owes (fun _ => False) owed s) :
    (waits only settled).Secure (WaitSites only settled) t (change (settle owed) next) s := by
  refine .knowing _ (stable_owes (fun _ => False) owed) know rest (fun s inv rest know _ => ?_)
  have after : WaitsPlaced only settled (settle owed s) := by
    refine ⟨inv.waiting, inv.woken, inv.inHand, inv.unique, inv.pending, inv.placed, fun yes => ?_⟩
    have none : owed.filter (fun k => k ∈ s.waiters.map Waiter.ticket) = [] := by
      rw [List.filter_eq_nil_iff]
      intro k mem registered
      obtain ⟨w, here, rfl⟩ := List.mem_map.1 (of_decide_eq_true registered)
      exact (know yes).2 w here mem
    simp only [settle, none, List.nil_append]
    exact inv.left yes
  have rested : EmptyHand t (settle owed s) := by cases t <;> exact rest
  exact ⟨⟨after, fun _ _ => ⟨rfl, rfl⟩, fun _ _ => rfl, le_rfl, fun w mem => .inl mem⟩,
    go _ after rested⟩

theorem waits_wakeSettle {key : Key} {state : SfState} {owed : List Nat} {next : Handler}
    (go : (waits only settled).Always (WaitSites only settled) t next) (rest : EmptyHand t s)
    (know : settled → Owes (fun w => w.key = key) owed s) :
    (waits only settled).Secure (WaitSites only settled) t
      (wakeWaiters key state (change (settle owed) next)) s := by
  refine .knowing _ (stable_owes (fun w => w.key = key) owed) know rest (fun s inv rest know _ =>
    ⟨(waits_refl t s inv rest trivial).1, ?_⟩)
  split
  · refine .knowing _ (stable_owes (fun w => w.key = key) owed) know rest
      (fun s inv rest know _ => ?_)
    obtain ⟨may, rested⟩ := waits_fine_wake key state s inv rest trivial
    refine ⟨may, waits_settle go rested (fun yes => ⟨(know yes).1, fun w mem mine => ?_⟩)⟩
    obtain ⟨old, kept⟩ := List.mem_filter.1 mem
    simp [(know yes).2 w old mine] at kept
  · rename_i empty
    have none : s.waiters = [] := by simpa using empty
    refine waits_settle go rest (fun yes => ⟨(know yes).1, fun w mem _ => ?_⟩)
    simp [none] at mem

theorem waits_removeThen (caller : Caller) (key : Key) {failed : Bool}
    {wakes : RemoveCode → Option SfState} {next : RemoveCode → Handler}
    (loud : wakes .removed = none → failed = true)
    (go : ∀ r, (waits only settled).Always (WaitSites only settled) t (next r)) :
    (waits only settled).Always (WaitSites only settled) t
      (removeThen caller key failed wakes next) := by
  intro s inv rest
  refine ⟨EmptyHand t, Contract.stable_rest _ _, rest, fun s inv rest met => ?_⟩
  have idle : (waits only settled).Fine (WaitSites only settled) t (.remove caller key failed)
      (sfClaimRemoveOwned caller key) :=
    waits_idle fun _ => rfl
  obtain ⟨may, rested⟩ := idle s inv rest met
  refine ⟨may, ?_⟩
  -- the waits owed are those of the key: numbers are unique among the registered ones
  have owes : ∀ owed, owed = (if removeCode key caller.owner s.claims = .removed
        then (s.waiters.filter (fun w => w.key = key)).map Waiter.ticket else []) →
      Owes (fun w => w.key = key) owed (sfClaimRemoveOwned caller key s) := by
    rintro owed rfl
    split
    · refine ⟨fun k mem => ?_, fun w mem mine => ?_⟩
      · obtain ⟨w, here, rfl⟩ := List.mem_map.1 mem
        exact inv.ticket_lt (List.mem_of_mem_filter here)
      · obtain ⟨x, here, same⟩ := List.mem_map.1 mine
        obtain ⟨there, keyed⟩ := List.mem_filter.1 here
        have one : x = w := List.inj_on_of_nodup_map inv.tickets_nodup there mem same
        exact one ▸ of_decide_eq_true keyed
    · exact ⟨fun k mem => (List.not_mem_nil mem).elim, fun w _ mem => (List.not_mem_nil mem).elim⟩
  dsimp only
  split
  · rename_i silent
    refine waits_settle (go _) rested (fun yes => ⟨(owes _ rfl).1, fun w mem mine => ?_⟩)
    split at mine
    · rename_i removed
      rw [removed] at silent
      have failing := loud silent
      subst failing
      exact met yes w mem ((owes _ rfl).2 w mem (by rw [if_pos removed]; exact mine))
    · exact List.not_mem_nil mine
  · exact waits_wakeSettle (go _) rested (fun _ => owes _ rfl)

/-! ## All requests -/

theorem waits_rules (only : ConnId → Prop) (settled : Prop) :
    Rules ((waits only settled).Fine (WaitSites only settled))
      ((waits only settled).Always (WaitSites only settled)) where
  closed := inferInstance
  done := fun _ _ => .done _
  refl := waits_refl
  persistPut := fun _ key _ _ _ go => always_persistPut (waits_refl _)
    (fun _ => waits_idle fun _ => rfl) (fun _ => waits_idle fun _ => rfl) (waits_fine_wake key _)
    (waits_idle fun _ => rfl) (fun _ => waits_idle fun _ => rfl) go
  persistDelete := fun _ _ _ go => always_persistDelete (waits_refl _)
    (waits_idle fun _ => by unfold deleteEffect; split <;> rfl) (waits_idle fun _ => rfl)
    (fun _ => waits_idle fun _ => rfl) go
  persistTxCommit := fun _ key _ _ _ _ go => always_persistTxCommit (waits_refl _)
    (fun _ => waits_idle (fun _ => by
      unfold commitEffect
      repeat' split
      all_goals rfl))
    (waits_fine_wake key _) (fun _ => waits_idle fun _ => rfl) go
  acquire := fun _ _ _ _ _ => always_acquire (waits_refl _)
    (fun _ => waits_idle fun _ => by unfold sfClaimGetOrCreateOwned; split <;> rfl)
    (fun _ => waits_idle fun _ => rfl) (fun _ => .done _)
  claimUnasked := fun _ _ _ => always_claimUnasked (waits_refl _)
    (fun _ => waits_idle fun _ => by unfold sfClaimGetOrCreateOwned; split <;> rfl) (.done _)
  removeThen := fun caller key _ _ _ loud go => waits_removeThen caller key loud go
  pin := fun _ _ _ => waits_idle fun _ => rfl
  check := fun _ _ _ => waits_idle fun _ => rfl
  record := fun _ _ _ _ => waits_idle fun _ => rfl
  serve := fun _ _ _ => waits_idle fun _ => rfl
  retain := fun _ _ _ _ _ _ _ _ => waits_idle fun _ => rfl
  wait := waits_wait
  close := waits_close
  drain := waits_drain
  sweep := fun now => waits_fine_rouse (fun w => w.deadlineMs ≤ now)
    (fun w => ⟨w.conn, none, .timeout, w.ticket⟩) (fun _ => rfl) (fun _ => rfl) (fun _ => rfl)
  evict := fun _ => waits_idle fun _ => rfl
  tick := fun _ _ => waits_idle fun _ => rfl

theorem waits_reached {maxClients : Nat} {meets : Site → Flight → Prop} {w : ServerCrew}
    (only : ConnId → Prop) (settled : Prop)
    (imp : ∀ site s, meets site s → WaitSites only settled site s)
    (run : Reached maxClients meets w) : WaitsPlaced only settled w.shared := by
  refine (waits_rules only settled).reached
    ⟨fun _ mem => (List.not_mem_nil mem).elim, fun _ mem => (List.not_mem_nil mem).elim,
      fun _ mem => (List.not_mem_nil mem).elim, List.nodup_nil, fun _ _ flag => ?_, fun _ => rfl,
      fun _ => rfl⟩ (fun t => ?_) (run.mono imp)
  · cases flag
  · cases t
    · rfl
    · trivial
    · trivial

/-! ## Exactly one answer -/

/-- A completion whose write failed removes its lease only when nobody waits for the key. -/
def WaitersWoken : Site → Flight → Prop
  | .remove _ key true, s => ∀ w ∈ s.waiters, w.key ≠ key
  | _, _ => True

instance : ∀ site s, Decidable (WaitersWoken site s)
  | .remove _ key true, s => inferInstanceAs (Decidable (∀ w ∈ s.waiters, w.key ≠ key))
  | .remove _ _ false, _ | .plain, _ | .drain _, _ | .put _, _ | .delete _, _ | .commit _ _, _
  | .retain _ _, _ => .isTrue trivial

theorem answerEach_answers {k : Nat} : ∀ (nodes : List WaiterWake) (s : Flight),
    (∀ n ∈ nodes, s.dead n.conn = false) →
    (k ∈ s.trace.answered ∨ ∃ n ∈ nodes, n.ticket = k) →
    k ∈ ((answerEach nodes).alone s).2.trace.answered
  | [], s, _, known => by
      rcases known with done | ⟨n, mem, -⟩
      · exact done
      · cases mem
  | n :: rest, s, alive, known => by
      have here : s.dead n.conn = false := alive n List.mem_cons_self
      refine answerEach_answers rest (answerWake n s)
        (fun m mem => alive m (List.mem_cons_of_mem n mem)) ?_
      simp only [answerWake, here, Bool.false_eq_true, if_false, List.mem_cons]
      rcases known with done | ⟨m, mem, rfl⟩
      · exact .inl (.inr done)
      · rcases List.mem_cons.1 mem with rfl | later
        · exact .inl (.inl rfl)
        · exact .inr ⟨m, later, rfl⟩

theorem drain_answers {n : WaiterWake} (alive : ∀ n ∈ s.wakes, s.dead n.conn = false)
    (mem : n ∈ s.wakes) :
    n.ticket ∈ ((sfDrainWakes n.conn.loop).alone s).2.trace.answered :=
  answerEach_answers _ _ (fun m taken => alive m (List.mem_of_mem_filter taken))
    (.inr ⟨n, List.mem_filter.2 ⟨mem, by simp⟩, rfl⟩)

/-- **One answer for each wait.** In every world reached, a request that removed a lease has left no
wait of the key registered; every registered wait is in exactly one place and no wait is answered
twice; a queued wake is answered when its loop drains, and a wait past its deadline when a sweep runs
before that. -/
theorem waits_answered_once {maxClients : Nat} {w : ServerCrew}
    (run : Reached maxClients WaitersWoken w) :
    w.shared.trace.left = [] ∧ (∀ k < w.shared.trace.tickets, w.shared.tally k = 1) ∧
      w.shared.trace.answered.Nodup ∧
      (∀ n ∈ w.shared.wakes,
        n.ticket ∈ ((sfDrainWakes n.conn.loop).alone w.shared).2.trace.answered) ∧
      ∀ x ∈ w.shared.waiters, x.deadlineMs ≤ w.shared.nowMs →
        x.ticket ∈ (Crew.history [Turn.entry (.house .sweep), Turn.entry (.drain x.conn.loop)]
          w.shared).trace.answered := by
  have inv : WaitsPlaced (fun _ => False) True w.shared := by
    refine waits_reached _ _ (fun site s met => ?_) run
    cases site with
    | remove caller key failed =>
        cases failed with
        | true => exact fun _ => met
        | false => trivial
    | drain l => exact fun _ _ _ no => no
    | _ => trivial
  refine ⟨inv.left trivial, fun k bound => (inv.placed k).trans (if_pos bound), ?_,
    fun n mem => drain_answers (fun m other => (inv.woken m other).2) mem, fun x mem overdue => ?_⟩
  · rw [List.nodup_iff_count_le_one]
    intro k
    have once := inv.placed k
    unfold Flight.tally at once
    split at once <;> omega
  · have busy : ¬ (w.shared.waiters = [] ∧ w.shared.negatives = [] ∧ w.shared.stale = []) := by
      rintro ⟨empty, -⟩
      simp [empty] at mem
    let swept := sfSweep w.shared.nowMs w.shared
    have roused : ∀ n ∈ swept.wakes, swept.dead n.conn = false := fun n queued =>
      ((inv.rouse (fun w' => w'.deadlineMs ≤ w.shared.nowMs) _ (fun _ => rfl)
        (fun _ => rfl)).woken n queued).2
    have queued : (⟨x.conn, none, .timeout, x.ticket⟩ : WaiterWake) ∈ swept.wakes :=
      List.mem_append_left _
        (List.mem_map.2 ⟨x, List.mem_filter.2 ⟨mem, by simpa using overdue⟩, rfl⟩)
    have answered := drain_answers roused queued
    simpa [Crew.history, Turn.entry, HouseTurn.handler, look, change, Flow.alone, busy] using answered

/-- A client waits for a management claim, which is completed; the loop answers. -/
def completedTurns : List Turn :=
  [.admin 9 (.acquire [107] 5000),
   .wire ⟨0, 1⟩ (.waitForKey [107] 1000),
   .admin 9 (.complete .done [107] [1] 0 false),
   .drain 0]

theorem waits_answered_once_completed : ∃ w, Reached 8 WaitersWoken w ∧
    w.shared.trace.answered = [0] ∧ w.shared.trace.left = [] := by
  obtain ⟨w, run, same⟩ := reached_afterwards WaitersWoken 8 completedTurns (by decide +kernel)
  exact ⟨w, run, by rw [same]; decide +kernel, (waits_answered_once run).1⟩

/-- The write of the completion fails: the lease is gone and the client waits on. -/
def failedCompletionTurns : List Turn :=
  [.admin 9 (.acquire [107] 5000),
   .wire ⟨0, 1⟩ (.waitForKey [107] 1000),
   .admin 9 (.complete .refused [107] [1] 0 false)]

theorem failed_completion_wakes_nobody : ∃ w, Reached 8 anytime w ∧ w.shared.claims = [] ∧
    w.shared.waiters = [⟨[107], ⟨0, 1⟩, 1000, 0⟩] ∧ w.shared.wakes = [] ∧
    w.shared.trace.left = [0] := by
  obtain ⟨w, run, same⟩ := reached_afterwards anytime 8 failedCompletionTurns (by decide +kernel)
  refine ⟨w, run, ?_⟩
  rw [same]
  decide +kernel

/-! ## The flag of a connection -/

instance (s : Flight) (conn : ConnId) : Decidable (s.Pending conn) :=
  inferInstanceAs (Decidable ((∃ w ∈ s.waiters, w.conn = conn) ∨ ∃ n ∈ s.wakes, n.conn = conn))

/-- No loop drains a wake node of the connection. -/
def NotDrained (conn : ConnId) : Site → Flight → Prop
  | .drain l, s => ∀ n ∈ s.wakes, n.conn.loop = l → n.conn ≠ conn
  | _, _ => True

instance (conn : ConnId) : ∀ site s, Decidable (NotDrained conn site s)
  | .drain l, s => inferInstanceAs (Decidable (∀ n ∈ s.wakes, n.conn.loop = l → n.conn ≠ conn))
  | .remove _ _ _, _ | .plain, _ | .put _, _ | .delete _, _ | .commit _ _, _ | .retain _ _, _ =>
      .isTrue trivial

/-- A wait is woken and its connection closes before the loop drains. -/
def closedTurns : List Turn :=
  [.wire ⟨0, 1⟩ (.getOrClaim [107] 5000),
   .wire ⟨0, 2⟩ (.waitForKey [107] 1000),
   .wire ⟨0, 1⟩ (.releaseClaim [107]),
   .wire ⟨0, 2⟩ .close]

/-- A wait is answered; the next one of the connection is refused although none is pending. -/
def answeredTurns : List Turn :=
  [.wire ⟨0, 1⟩ (.getOrClaim [107] 5000),
   .wire ⟨0, 2⟩ (.waitForKey [107] 1000),
   .wire ⟨0, 1⟩ (.releaseClaim [107]),
   .drain 0,
   .wire ⟨0, 1⟩ (.getOrClaim [107] 5000)]

end KuttiDB.Server
