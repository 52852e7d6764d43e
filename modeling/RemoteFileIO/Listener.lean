import RemoteFileIO.Session

/-! `main`'s server loop. The parent `accept`s a connection and `fork`s a child that runs the
session on it. The children run interleaved as the operating system schedules them, against one
file system that answers each call knowing every call made before it, by any child. -/

namespace RemoteFileIO

section Pass

variable {env : Env} {p p' : Proc} {fuel : Nat} {more : Bool}

theorem serveRequest_add_fuel {conn : Conn} {fID bufSize : Int} {r : Except Stop (Bool × Proc)}
    (h : serveRequest env fuel p conn fID bufSize = r) (hr : r ≠ .error .fuel) (k : Nat) :
    serveRequest env (fuel + k) p conn fID bufSize = r := by
  unfold serveRequest at h ⊢
  split at h
  · rwa [if_pos ‹_›]
  · rw [if_neg ‹_›]
    cases hs : receiveAll env.link bufSize fuel (recvStart ⟨bufSize.toNat, []⟩ bufSize conn) with
    | error e =>
      rw [hs, except_error_bind] at h
      subst h
      rw [receiveAll_add_fuel hs (fun he => hr (by cases he; rfl)) k, except_error_bind]
    | ok s => rwa [receiveAll_add_fuel hs nofun k, ← hs]

theorem serve_add_fuel {r : Except Stop (Bool × Proc)} (h : serve env fuel p = r)
    (hr : r ≠ .error .fuel) (k : Nat) : serve env (fuel + k) p = r := by
  unfold serve at h ⊢
  dsimp only at h ⊢
  split at h
  · rwa [if_pos ‹_›]
  · rw [if_neg ‹_›]
    exact except_bind_congr h fun _ _ h => except_bind_congr h fun _ _ h =>
      serveRequest_add_fuel h hr k

theorem session_add_fuel {r : Except Stop Proc} (h : session env fuel p = r)
    (hr : r ≠ .error .fuel) (k : Nat) : session env (fuel + k) p = r := by
  induction fuel generalizing p with
  | zero => exact absurd h.symm hr
  | succ fuel ih =>
    rw [Nat.add_right_comm, session]
    rw [session] at h
    cases hs : serve env fuel p with
    | error e =>
      rw [hs, except_error_bind] at h
      subst h
      rw [serve_add_fuel hs (fun he => hr (by cases he; rfl)) k, except_error_bind]
    | ok q =>
      rw [hs] at h
      rw [serve_add_fuel hs nofun k]
      obtain ⟨_ | _, q⟩ := q
      · exact h
      · exact ih h

theorem serve_congr {link : Link} {fs fs' : FileSystem} {stale : Nat → Bytes}
    (h : fs p.calls = fs' p.calls) : serve ⟨link, fs, stale⟩ fuel p = serve ⟨link, fs', stale⟩ fuel p := by
  simp only [serve, serveRequest, h]

theorem serve_calls_prefix (h : serve env fuel p = .ok (more, p')) : p.calls <+: p'.calls := by
  obtain ⟨_, -, -, -, -, ⟨-, rfl⟩ | ⟨-, c, -, -, -, rfl, -⟩⟩ := serve_cases h
  · exact List.prefix_refl _
  · exact List.prefix_append _ _

theorem serve_true_calls (h : serve env fuel p = .ok (true, p')) : ∃ c, p'.calls = p.calls ++ [c] := by
  obtain ⟨_, -, -, -, -, ⟨h', -⟩ | ⟨-, c, -, -, -, rfl, -⟩⟩ := serve_cases h
  · cases h'
  · exact ⟨c, rfl⟩

end Pass

/-- The states the child's loop passes through from `p₀`: passes of `serve` that returned 0. -/
inductive Serves (env : Env) (p₀ : Proc) : Proc → Prop
  | start : Serves env p₀ p₀
  | pass {p p' : Proc} {fuel : Nat} : Serves env p₀ p → serve env fuel p = .ok (true, p') →
    Serves env p₀ p'

section Loop

variable {env : Env} {p₀ p : Proc}

theorem Serves.reach (h : Serves env p₀ p) : Reach env p₀ p := by
  induction h with
  | start => exact .start
  | pass _ hs ih => exact ih.step hs

theorem Serves.session_eq (h : Serves env p₀ p) {fuel : Nat} {r : Except Stop Proc}
    (hs : session env fuel p = r) (hr : r ≠ .error .fuel) : ∃ fuel', session env fuel' p₀ = r := by
  induction h generalizing fuel with
  | start => exact ⟨fuel, hs⟩
  | @pass q q' f _ hq ih =>
    have hrest : session env (f + fuel) q' = r := by
      rw [Nat.add_comm]; exact session_add_fuel hs hr f
    have hq' : session env (f + fuel + 1) q = r := by
      rw [session, serve_add_fuel hq nofun fuel]
      exact hrest
    exact ih hq'

theorem Serves.congr {link : Link} {fs fs' : FileSystem} {stale : Nat → Bytes}
    (h : Serves ⟨link, fs, stale⟩ p₀ p) (hfs : ∀ calls : List Call, calls.length < p.calls.length → fs calls = fs' calls) :
    Serves ⟨link, fs', stale⟩ p₀ p := by
  induction h with
  | start => exact .start
  | @pass q q' _ _ hq ih =>
    obtain ⟨c, hc⟩ := serve_true_calls hq
    have hlt : q.calls.length < q'.calls.length := by simp [hc]
    exact (ih fun calls h => hfs calls (by omega)).pass ((serve_congr (hfs _ hlt)).symm.trans hq)

end Loop

/-- A forked child: serving, exited after `serve` returned -1, or stopped in a pass (`err`, UB). -/
inductive Child
  | serving (p : Proc)
  | exited (p : Proc)
  | stopped (p : Proc) (e : Stop)

def Child.proc : Child → Proc
  | .serving p | .exited p | .stopped p _ => p

@[simp] theorem Child.proc_serving (p : Proc) : (Child.serving p).proc = p := rfl

@[simp] theorem Child.proc_stopped (p : Proc) (e : Stop) : (Child.stopped p e).proc = p := rfl

def Child.after (p : Proc) : Except Stop (Bool × Proc) → Child
  | .ok (true, p') => .serving p'
  | .ok (false, p') => .exited p'
  | .error e => .stopped p e

/-- A child is where its session from `p₀` has got to: still looping, returned, or stopped. -/
def Child.Runs (env : Env) (p₀ : Proc) : Child → Prop
  | .serving p => Serves env p₀ p
  | .exited p => ∃ fuel, session env fuel p₀ = .ok p
  | .stopped p e => Serves env p₀ p ∧ e ≠ .fuel ∧ ∃ fuel, session env fuel p₀ = .error e

section Runs

variable {env : Env} {p₀ p : Proc} {fuel : Nat} {r : Except Stop (Bool × Proc)}

theorem Child.Runs.after (h : Serves env p₀ p) (hs : serve env fuel p = r) (hr : r ≠ .error .fuel) :
    (Child.after p r).Runs env p₀ := by
  rcases r with e | ⟨_ | _, p'⟩
  · exact ⟨h, fun he => hr (by rw [he]),
      h.session_eq (show session env (fuel + 1) p = .error e by rw [session, hs]; rfl)
        fun he => hr (by cases he; rfl)⟩
  · exact h.session_eq (show session env (fuel + 1) p = .ok p' by rw [session, hs]; rfl) nofun
  · exact h.pass hs

theorem Child.Runs.reach {ch : Child} (h : ch.Runs env p₀) : Reach env p₀ ch.proc := by
  cases ch with
  | serving p => exact Serves.reach h
  | exited p => obtain ⟨fuel, h⟩ := h; exact Reach.of_session .start fuel h
  | stopped p e => exact h.1.reach

theorem Child.after_calls (hs : serve env fuel p = r) : p.calls <+: (Child.after p r).proc.calls := by
  rcases r with e | ⟨_ | _, p'⟩
  · exact List.prefix_refl _
  all_goals exact serve_calls_prefix hs

theorem Child.after_calls_eq (hs : serve env fuel p = r) :
    ∃ new : List Call, new.length ≤ 1 ∧ (Child.after p r).proc.calls = p.calls ++ new := by
  rcases r with e | ⟨_ | _, p'⟩
  · exact ⟨[], Nat.zero_le _, (List.append_nil _).symm⟩
  · obtain ⟨_, -, -, -, -, ⟨-, rfl⟩ | ⟨h, -⟩⟩ := serve_cases hs
    · exact ⟨[], Nat.zero_le _, (List.append_nil _).symm⟩
    · cases h
  · obtain ⟨c, hc⟩ := serve_true_calls hs
    exact ⟨[c], le_rfl, hc⟩

end Runs

/-- What the operating system decides: the clients' connections, which `accept` and `fork` fail,
each connection's transport and stack bytes, and each call's outcome given every call before it. -/
structure Os where
  clients : List Bytes
  acceptFails : Nat → Bool
  forkFails : Nat → Bool
  link : Nat → Link
  stale : Nat → Nat → Bytes
  answer : List (Nat × Call) → Nat → Call → Outcome

def Os.env (os : Os) (i : Nat) (fs : FileSystem) : Env := ⟨os.link i, fs, os.stale i⟩

/-- The server and its children: connections accepted, whether the parent loops, the children,
and every call made so far with the child that made it. -/
structure Server where
  accepted : Nat
  listening : Bool
  children : List Child
  log : List (Nat × Call)

def Server.init : Server := ⟨0, true, [], []⟩

/-- What the scheduler runs next: the parent's `accept` and `fork`, or one pass of child `i`. -/
inductive Action
  | accept
  | pass (i fuel : Nat)

def Server.forked (s : Server) (c : Bytes) : Server :=
  { s with accepted := s.accepted + 1, children := s.children ++ [.serving (Proc.start c)] }

/-- After a pass of child `i` from `p` that returned `r`: the file system has seen its call. -/
def Server.passed (s : Server) (i : Nat) (p : Proc) (r : Except Stop (Bool × Proc)) : Server :=
  { s with
    children := s.children.set i (Child.after p r)
    log := s.log ++ ((Child.after p r).proc.calls.drop p.calls.length).map fun c => (i, c) }

/-- One step. `accept` waits while no connection is pending; a failed `accept` or `fork` ends the
parent; a pass still blocked in `receiveAll` when its fuel runs out is no step. -/
def Server.step (os : Os) (s : Server) : Action → Option Server
  | .accept =>
    if s.listening then
      if os.acceptFails s.accepted then some { s with listening := false }
      else (os.clients[s.accepted]?).map fun c =>
        if os.forkFails s.accepted then { s with accepted := s.accepted + 1, listening := false }
        else s.forked c
    else none
  | .pass i fuel =>
    match s.children[i]? with
    | some (.serving p) =>
      match serve (os.env i fun _ => os.answer s.log i) fuel p with
      | .error .fuel => none
      | r => some (s.passed i p r)
    | _ => none

inductive Server.Reach (os : Os) : Server → Prop
  | init : Server.Reach os .init
  | step {s s' : Server} (a : Action) : Server.Reach os s → s.step os a = some s' →
    Server.Reach os s'

section Step

variable {os : Os} {s s' : Server}

theorem Server.step_cases {a : Action} (h : s.step os a = some s') :
    (s'.children = s.children ∧ s'.log = s.log ∧ s'.listening = false ∧
      (s'.accepted = s.accepted ∨ s'.accepted = s.accepted + 1 ∧ s.accepted < os.clients.length)) ∨
    (∃ c, s.listening = true ∧ os.clients[s.accepted]? = some c ∧ s' = s.forked c) ∨
    (∃ i fuel p r, s.children[i]? = some (.serving p) ∧
      serve (os.env i fun _ => os.answer s.log i) fuel p = r ∧ r ≠ .error .fuel ∧ s' = s.passed i p r) := by
  cases a with
  | accept =>
    rw [Server.step] at h
    split_ifs at h with hl ha hf
    · cases h; exact .inl ⟨rfl, rfl, rfl, .inl rfl⟩
    · obtain ⟨c, hc, rfl⟩ := Option.map_eq_some'.mp h
      exact .inl ⟨rfl, rfl, rfl, .inr ⟨rfl, (List.getElem?_eq_some_iff.mp hc).1⟩⟩
    · obtain ⟨c, hc, rfl⟩ := Option.map_eq_some'.mp h
      exact .inr (.inl ⟨c, hl, hc, rfl⟩)
  | pass i fuel =>
    rw [Server.step] at h
    split at h
    · rename_i p hp
      split at h
      · cases h
      · rename_i hr
        cases h; exact .inr (.inr ⟨i, fuel, p, _, hp, rfl, hr, rfl⟩)
    · cases h

theorem Server.passed_log {i : Nat} {p : Proc} {r : Except Stop (Bool × Proc)} :
    (s.passed i p r).log =
      s.log ++ ((Child.after p r).proc.calls.drop p.calls.length).map fun c => (i, c) := rfl

theorem Server.passed_children {i j : Nat} {p : Proc} {r : Except Stop (Bool × Proc)}
    (hlt : i < s.children.length) :
    (s.passed i p r).children[j]? = if i = j then some (Child.after p r) else s.children[j]? := by
  simp only [Server.passed]
  split
  · subst_vars; exact List.getElem?_set_self hlt
  · exact List.getElem?_set_ne ‹_›

end Step

theorem filter_map_pair (cs : List Call) (i j : Nat) :
    (cs.map fun c => (i, c)).filter (fun e => e.1 == j) =
      if i = j then cs.map (fun c => (i, c)) else [] := by
  split
  · exact List.filter_eq_self.mpr (by simp_all)
  · exact List.filter_eq_nil_iff.mpr (by simp_all)

/-- `fs` answered each of `calls` as the shared file system did after the log before it. -/
def Os.Answers (os : Os) (log : List (Nat × Call)) (i : Nat) (calls : List Call) (fs : FileSystem) :
    Prop :=
  ∀ k (hk : k < calls.length), ∃ pre, pre ++ [(i, calls[k])] <+: log ∧ fs (calls.take k) = os.answer pre i

section Answers

variable {os : Os} {log : List (Nat × Call)} {i : Nat} {calls : List Call} {fs : FileSystem}

theorem Os.Answers.mono (h : os.Answers log i calls fs) {log' : List (Nat × Call)} (hl : log <+: log') :
    os.Answers log' i calls fs := fun k hk =>
  let ⟨pre, hpre, heq⟩ := h k hk
  ⟨pre, hpre.trans hl, heq⟩

theorem Os.Answers.passed (h : os.Answers log i calls fs) {new : List Call} (hnew : new.length ≤ 1) :
    os.Answers (log ++ new.map fun c => (i, c)) i (calls ++ new)
      (Function.update fs calls (os.answer log i)) := by
  intro k hk
  by_cases hlt : k < calls.length
  · obtain ⟨pre, hpre, heq⟩ := h k hlt
    have hne : calls.take k ≠ calls := fun he => by
      have := congrArg List.length he; simp at this; omega
    refine ⟨pre, ?_, ?_⟩
    · rw [List.getElem_append_left hlt]; exact hpre.trans (List.prefix_append _ _)
    · rw [List.take_append_of_le_length hlt.le, Function.update_noteq hne]; exact heq
  · obtain ⟨c, rfl⟩ : ∃ c, new = [c] := by
      match new, hnew with
      | [c], _ => exact ⟨c, rfl⟩
      | [], _ => simp at hk; omega
    obtain rfl : k = calls.length := by simp at hk; omega
    refine ⟨log, by simp, ?_⟩
    rw [List.take_left, Function.update_same]

end Answers

/-- What holds at every state a schedule reaches. -/
structure Server.Inv (os : Os) (s : Server) : Prop where
  /-- Only connections that clients opened are accepted. -/
  accepted_le : s.accepted ≤ os.clients.length
  /-- A child for each accepted connection, but the one a failed `fork` leaves. -/
  children_le : s.children.length ≤ s.accepted
  listening : s.listening = true → s.children.length = s.accepted
  /-- The file system has seen each child's calls, in the child's order, and no other calls. -/
  log_child : ∀ (i : Nat) (ch : Child), s.children[i]? = some ch →
    s.log.filter (fun e => e.1 == i) = ch.proc.calls.map fun c => (i, c)
  log_lt : ∀ e ∈ s.log, e.1 < s.children.length
  /-- Each child runs its connection's session, against answers the shared file system gave. -/
  runs : ∀ (i : Nat) (ch : Child), s.children[i]? = some ch →
    ∃ c, os.clients[i]? = some c ∧ ∃ fs, ch.Runs (os.env i fs) (Proc.start c) ∧
      os.Answers s.log i ch.proc.calls fs

section Inv

variable {os : Os} {s s' : Server}

theorem Server.Inv.init : Server.init.Inv os where
  accepted_le := Nat.zero_le _
  children_le := le_rfl
  listening _ := rfl
  log_child _ _ h := by simp [Server.init] at h
  log_lt _ h := by simp [Server.init] at h
  runs _ _ h := by simp [Server.init] at h

theorem Server.Inv.parent_ends (hi : s.Inv os) (hc : s'.children = s.children) (hlog : s'.log = s.log)
    (hl : s'.listening = false)
    (hacc : s'.accepted = s.accepted ∨ s'.accepted = s.accepted + 1 ∧ s.accepted < os.clients.length) :
    s'.Inv os where
  accepted_le := by have := hi.accepted_le; omega
  children_le := by have := hi.children_le; rw [hc]; omega
  listening h := by simp [hl] at h
  log_child := by rw [hc, hlog]; exact hi.log_child
  log_lt := by rw [hc, hlog]; exact hi.log_lt
  runs := by rw [hc, hlog]; exact hi.runs

theorem Server.Inv.fork {c : Bytes} (hi : s.Inv os) (hl : s.listening = true)
    (hc : os.clients[s.accepted]? = some c) : (s.forked c).Inv os where
  accepted_le := (List.getElem?_eq_some_iff.mp hc).1
  children_le := by have := hi.children_le; simp [Server.forked]; omega
  listening _ := by simp [Server.forked, hi.listening hl]
  log_child i ch hch := by
    simp only [Server.forked] at hch ⊢
    rcases Nat.lt_or_ge i s.children.length with hlt | hge
    · exact hi.log_child i ch (by rwa [List.getElem?_append_left hlt] at hch)
    · rw [List.getElem?_append_right hge] at hch
      obtain ⟨-, rfl⟩ := List.getElem?_eq_some_iff.mp hch
      refine (List.filter_eq_nil_iff.mpr fun e he => ?_).trans (by simp [Proc.start])
      have := hi.log_lt e he
      simp only [beq_iff_eq]; omega
  log_lt e he := by have := hi.log_lt e he; simp [Server.forked]; omega
  runs i ch hch := by
    simp only [Server.forked] at hch
    rcases Nat.lt_or_ge i s.children.length with hlt | hge
    · exact hi.runs i ch (by rwa [List.getElem?_append_left hlt] at hch)
    · rw [List.getElem?_append_right hge] at hch
      obtain ⟨hlt, rfl⟩ := List.getElem?_eq_some_iff.mp hch
      have hi' : i = s.accepted := by simp at hlt; have := hi.listening hl; omega
      subst hi'
      exact ⟨c, hc, fun _ => os.answer s.log s.accepted, by simpa using Serves.start,
        fun k hk => absurd hk (by simp [Proc.start])⟩

/-- A pass of child `i` keeps the invariant: its calls reach the file system, and its new state is
one its session reaches against the file system that answered as this one did. -/
theorem Server.Inv.passed {i fuel : Nat} {p : Proc} {r : Except Stop (Bool × Proc)} (hi : s.Inv os)
    (hp : s.children[i]? = some (.serving p))
    (hs : serve (os.env i fun _ => os.answer s.log i) fuel p = r) (hr : r ≠ .error .fuel) :
    (s.passed i p r).Inv os where
  accepted_le := hi.accepted_le
  children_le := by simpa [Server.passed] using hi.children_le
  listening h := by simpa [Server.passed] using hi.listening h
  log_child j ch hch := by
    have hlt : i < s.children.length := (List.getElem?_eq_some_iff.mp hp).1
    simp only [Server.passed, List.filter_append, filter_map_pair] at hch ⊢
    by_cases hij : i = j
    · subst hij
      rw [List.getElem?_set_self hlt, Option.some.injEq] at hch
      subst hch
      rw [hi.log_child i _ hp, if_pos rfl, Child.proc_serving, ← List.map_append,
        List.prefix_iff_eq_append.mp (Child.after_calls hs)]
    · rw [List.getElem?_set_ne hij] at hch
      rw [if_neg hij, List.append_nil]; exact hi.log_child j ch hch
  log_lt e he := by
    have hlt : i < s.children.length := (List.getElem?_eq_some_iff.mp hp).1
    simp only [Server.passed, List.length_set, List.mem_append, List.mem_map] at he ⊢
    rcases he with he | ⟨_, -, rfl⟩
    · exact hi.log_lt e he
    · exact hlt
  runs j ch hch := by
    have hlt : i < s.children.length := (List.getElem?_eq_some_iff.mp hp).1
    simp only [Server.passed] at hch
    by_cases hij : i = j
    · subst hij
      rw [List.getElem?_set_self hlt, Option.some.injEq] at hch
      subst hch
      obtain ⟨c, hc, fs, hrun, hans⟩ := hi.runs i _ hp
      let fs' := Function.update fs p.calls (os.answer s.log i)
      have hserves : Serves (os.env i fs') (Proc.start c) p :=
        Serves.congr hrun fun calls h =>
          (Function.update_noteq (fun he => by rw [he] at h; exact lt_irrefl _ h) _ _).symm
      have hfs : fs' p.calls = os.answer s.log i := Function.update_same _ _ _
      obtain ⟨new, hnew, hcalls⟩ := Child.after_calls_eq hs
      refine ⟨c, hc, fs', Child.Runs.after hserves ((serve_congr hfs).trans hs) hr, ?_⟩
      rw [hcalls, Server.passed_log, hcalls, List.drop_left]
      exact hans.passed hnew
    · rw [List.getElem?_set_ne hij] at hch
      obtain ⟨c, hc, fs, hrun, hans⟩ := hi.runs j ch hch
      exact ⟨c, hc, fs, hrun, hans.mono (List.prefix_append _ _)⟩

theorem Server.Inv.step {a : Action} (hi : s.Inv os) (h : s.step os a = some s') : s'.Inv os := by
  rcases Server.step_cases h with ⟨hc, hlog, hl, hacc⟩ | ⟨c, hl, hc, rfl⟩ | ⟨i, fuel, p, r, hp, hs, hr, rfl⟩
  · exact hi.parent_ends hc hlog hl hacc
  · exact hi.fork hl hc
  · exact hi.passed hp hs hr

theorem Server.Reach.inv (h : Server.Reach os s) : s.Inv os := by
  induction h with
  | init => exact .init
  | step _ _ hs ih => exact ih.step hs

end Inv

/-- Two clients, each sending one `close` request over a loopback transport. -/
def loopbackOs : Os :=
  ⟨[frames [.close 5], frames [.close 6]], fun _ => false, fun _ => false, fun _ => loopbackEnv.link,
    fun _ => loopbackEnv.stale, fun _ _ _ => ⟨0, 0, [], none⟩⟩

/-- The file system answers each child from its own calls alone: no descriptor or file is shared. -/
def Os.Isolated (os : Os) : Prop :=
  ∀ (log log' : List (Nat × Call)) (i : Nat),
    log.filter (fun e => e.1 == i) = log'.filter (fun e => e.1 == i) → os.answer log i = os.answer log' i

def Os.soloFs (os : Os) (i : Nat) : FileSystem := fun calls => os.answer (calls.map fun c => (i, c)) i

theorem Server.Reach.solo {os : Os} {s : Server} (hI : os.Isolated) (h : Server.Reach os s) :
    ∀ (i : Nat) (ch : Child) (c : Bytes), s.children[i]? = some ch → os.clients[i]? = some c →
      ch.Runs (os.env i (os.soloFs i)) (Proc.start c) := by
  induction h with
  | init => intro i ch c hch; simp [Server.init] at hch
  | @step s s' a hr hs ih =>
    have hi := hr.inv
    rcases Server.step_cases hs with ⟨hc, -, -, -⟩ | ⟨c, hl, hc, rfl⟩ | ⟨i, fuel, p, r, hp, hsv, hne, rfl⟩
    · intro j ch c' hch; rw [hc] at hch; exact ih j ch c' hch
    · intro j ch c' hch hc'
      simp only [Server.forked] at hch
      rcases Nat.lt_or_ge j s.children.length with hlt | hge
      · exact ih j ch c' (by rwa [List.getElem?_append_left hlt] at hch) hc'
      · rw [List.getElem?_append_right hge] at hch
        obtain ⟨hlt, rfl⟩ := List.getElem?_eq_some_iff.mp hch
        have hj : j = s.accepted := by simp at hlt; have := hi.listening hl; omega
        subst hj
        rw [hc, Option.some.injEq] at hc'
        subst hc'
        simpa using Serves.start
    · intro j ch c' hch hc'
      have hlt : i < s.children.length := (List.getElem?_eq_some_iff.mp hp).1
      simp only [Server.passed] at hch
      by_cases hij : i = j
      · subst hij
        rw [List.getElem?_set_self hlt, Option.some.injEq] at hch
        subst hch
        have hfs : os.soloFs i p.calls = os.answer s.log i :=
          hI _ _ i (by rw [filter_map_pair, if_pos rfl, hi.log_child i _ hp, Child.proc_serving])
        exact Child.Runs.after (ih i _ c' hp hc') ((serve_congr hfs).trans hsv) hne
      · rw [List.getElem?_set_ne hij] at hch
        exact ih j ch c' hch hc'

/-- When the file system answers each child from its own calls alone, every schedule serves each
client as the server would with that client alone. -/
theorem listener_isolated_sessions (os : Os) (hI : os.Isolated) (s : Server) (h : Server.Reach os s)
    (i : Nat) (ch : Child) (hch : s.children[i]? = some ch) :
    ∃ c, os.clients[i]? = some c ∧ ch.Runs (os.env i (os.soloFs i)) (Proc.start c) := by
  obtain ⟨c, hc, -⟩ := h.inv.runs i ch hch
  exact ⟨c, hc, h.solo hI i ch c hch hc⟩

theorem listener_isolated_sessions_loopback :
    ∃ s ch, Server.Reach loopbackOs s ∧ s.children[0]? = some ch ∧
      ∃ c, loopbackOs.clients[0]? = some c ∧
        ch.Runs (loopbackOs.env 0 (loopbackOs.soloFs 0)) (Proc.start c) := by
  have h : Server.Reach loopbackOs _ :=
    .step (.pass 0 3) (.step (.pass 1 3) (.step .accept (.step .accept .init rfl) rfl) rfl) rfl
  exact ⟨_, _, h, rfl, listener_isolated_sessions loopbackOs (fun _ _ _ _ => rfl) _ h 0 _ rfl⟩

end RemoteFileIO
