import RemoteFileIO.Listener
import RemoteFileIO.Payloads

/-! Each client of the forking server is served as §4.3 says, when the file system answers each
child from its own calls alone and the clients send well-formed frames. Whatever the clients
send, up to the first undefined behaviour the server calls the file system only as they asked,
and with servable outcomes each reply is §4.2's reply to the call it answers. -/

namespace RemoteFileIO

section Fuel

variable {env : Env} {p : Proc}

theorem serve_fuel_eq {f g : Nat} {r r' : Except Stop (Bool × Proc)} (h : serve env f p = r)
    (h' : serve env g p = r') (hr : r ≠ .error .fuel) (hr' : r' ≠ .error .fuel) : r = r' := by
  have h₂ := serve_add_fuel h' hr' f
  rw [Nat.add_comm] at h₂
  exact (serve_add_fuel h hr g).symm.trans h₂

end Fuel

theorem frames_drop (cs : List Call) (k : Nat) :
    (frames cs).drop (frames (cs.take k)).length = frames (cs.drop k) := by
  have h : frames cs = frames (cs.take k) ++ frames (cs.drop k) := by
    simp only [frames, ← List.flatMap_append, List.take_append_drop]
  rw [h, List.drop_left]

theorem frames_take_succ {cs : List Call} {k : Nat} (hk : k < cs.length) :
    frames (cs.take (k + 1)) = frames (cs.take k) ++ frame cs[k] := by
  rw [List.take_succ, List.getElem?_eq_getElem hk, Option.toList_some]
  simp only [frames, List.flatMap_append, List.flatMap_cons, List.flatMap_nil, List.append_nil]

theorem specEvents_append (fs : FileSystem) (done cs : List Call) (c : Call) :
    specEvents fs done (cs ++ [c]) = specEvents fs done cs ++
      [.dispatch c.opId c.payload, .reply (specReply c (fs (done ++ cs) c))] := by
  induction cs generalizing done with
  | nil => simp [specEvents]
  | cons c' cs ih => simp [specEvents, ih, List.append_assoc]

theorem AllServable.getElem {fs : FileSystem} {done cs : List Call} (h : AllServable fs done cs)
    {k : Nat} (hk : k < cs.length) : cs[k].WF ∧ (fs (done ++ cs.take k) cs[k]).Servable cs[k] := by
  induction cs generalizing done k with
  | nil => simp at hk
  | cons c cs ih =>
    obtain ⟨hc, ho, h⟩ := h
    cases k with
    | zero => simpa using ⟨hc, ho⟩
    | succ k => simpa [List.append_assoc] using ih h (by simpa using hk : k < cs.length)

theorem Link.HeadersWhole.getElem {link : Link} {pos : Nat} {cs : List Call}
    (h : link.HeadersWhole pos cs) {k : Nat} (hk : k < cs.length) :
    ∃ n, 8 ≤ n ∧ link.recvSeg (pos + (frames (cs.take k)).length) = some n := by
  induction cs generalizing pos k with
  | nil => simp at hk
  | cons c cs ih =>
    obtain ⟨h₀, h⟩ := h
    cases k with
    | zero => simpa [frames] using h₀
    | succ k => simpa [frames, Nat.add_assoc] using ih h (by simpa using hk : k < cs.length)

/-- A session on the frames of `cs` after it answered the first `k` requests as §4.3 says. -/
structure Answered (fs : FileSystem) (cs : List Call) (k : Nat) (p : Proc) : Prop where
  le : k ≤ cs.length
  stream : p.conn.stream = frames cs
  pos : p.conn.pos = (frames (cs.take k)).length
  calls : p.calls = cs.take k
  events : p.events = specEvents fs [] (cs.take k)

section Answered

variable {env : Env} {cs : List Call}
  (hok : ∀ q < (frames cs).length, (env.link.recvSeg q).isSome)
  (hh : env.link.HeadersWhole 0 cs) (hv : AllServable env.fs [] cs)
  (hsock : ∀ c ∈ cs, c.fildes ≠ some sessfd)

include hok hh hv hsock

theorem Answered.serve_next {k : Nat} {p : Proc} (ha : Answered env.fs cs k p) (hk : k < cs.length) :
    ∃ p', serve env (cs[k].payload.length + 1) p = .ok (true, p') ∧
      p'.conn = send env.link { p.conn with pos := p.conn.pos + (frame cs[k]).length }
        (specReply cs[k] (env.fs p.calls cs[k])) ∧ p'.calls = p.calls ++ [cs[k]] ∧
      p'.events = p.events ++
        [.dispatch cs[k].opId cs[k].payload, .reply (specReply cs[k] (env.fs p.calls cs[k]))] := by
  obtain ⟨n, h8, hn⟩ := hh.getElem hk
  obtain ⟨hc, ho⟩ := hv.getElem hk
  have hdrop : p.conn.stream.drop p.conn.pos = frame cs[k] ++ frames (cs.drop (k + 1)) := by
    rw [ha.stream, ha.pos, frames_drop, List.drop_eq_getElem_cons hk, frames, List.flatMap_cons]
    rfl
  rw [Nat.zero_add, ← ha.pos] at hn
  rw [List.nil_append, ← ha.calls] at ho
  exact serve_call hn h8 hdrop hc (hsock _ (List.getElem_mem hk)) ho (by rwa [ha.stream]) _ (by omega)

theorem Answered.pass {k fuel : Nat} {p p' : Proc} (ha : Answered env.fs cs k p)
    (hs : serve env fuel p = .ok (true, p')) : Answered env.fs cs (k + 1) p' := by
  have hk : k < cs.length := by
    by_contra hk
    have hend : p.conn.stream.length ≤ p.conn.pos := by
      rw [ha.stream, ha.pos, List.take_of_length_le (by omega)]
    rw [serve_eof hend] at hs
    cases hs
  obtain ⟨p'', hs'', hconn, hcalls, hevents⟩ := ha.serve_next hok hh hv hsock hk
  obtain rfl : p' = p'' := by
    have := serve_fuel_eq hs hs'' nofun nofun
    simp only [Except.ok.injEq, Prod.mk.injEq, true_and] at this
    exact this
  refine ⟨hk, by rw [hconn]; exact ha.stream, ?_, ?_, ?_⟩
  · rw [hconn, frames_take_succ hk, List.length_append, ← ha.pos]; rfl
  · rw [hcalls, ha.calls, List.take_succ, List.getElem?_eq_getElem hk]; rfl
  · rw [hevents, ha.events, ha.calls, List.take_succ, List.getElem?_eq_getElem hk]
    exact (specEvents_append env.fs [] _ cs[k]).symm

end Answered

section Replies

variable {env : Env} (hs : ∀ done c, (env.fs done c).Servable c)

include hs

theorem serve_replies {fuel : Nat} {more : Bool} {p p' : Proc}
    (h : serve env fuel p = .ok (more, p'))
    (hi : Event.replies p.events = Event.replies (specEvents env.fs [] p.calls)) :
    Event.replies p'.events = Event.replies (specEvents env.fs [] p'.calls) := by
  obtain ⟨c, -, -, -, -, ⟨-, rfl⟩ | ⟨-, call, fID, buf, reply, rfl, ⟨hd, hh, hsv⟩, -⟩⟩ :=
    serve_cases h
  · exact hi
  · obtain ⟨-, rfl⟩ := handler_reply hh hsv (hs _ _)
    simp only [Event.replies_append, Event.replies_dispatch_reply, specEvents_append, hi,
      List.nil_append]

theorem Reach.replies {stream : Bytes} {p : Proc} (h : Reach env (Proc.start stream) p) :
    Event.replies p.events = Event.replies (specEvents env.fs [] p.calls) := by
  induction h with
  | start => rfl
  | step _ hsv ih => exact serve_replies hs hsv ih

end Replies

/-- Up to the first UB or call on `sessfd`, whatever the client sends, a session's replies so far
are §4.2's replies to its calls in order, and the client got them as their `send`s delivered. -/
theorem session_replies_spec (env : Env) (hs : ∀ done c, (env.fs done c).Servable c)
    (stream : Bytes) (p : Proc) (h : Reach env (Proc.start stream) p) :
    Event.replies p.events = Event.replies (specEvents env.fs [] p.calls) ∧
      p.conn.wire = env.link.delivered 0 (Event.replies (specEvents env.fs [] p.calls)) := by
  have hr := h.replies hs
  exact ⟨hr, hr ▸ h.wireInv.1⟩

/-- A file system on which every call returns 0, `stat` filling its whole buffer. -/
def zeroFs : FileSystem :=
  fun _ c => ⟨0, 0, if c.opId = 5 then List.replicate statSize 0 else [], none⟩

theorem zeroFs_servable (done : List Call) (c : Call) : (zeroFs done c).Servable c := by
  cases c <;> simp [zeroFs, Outcome.Servable, Call.opId, statSize]

/-- `close(3)` sent with two stray bytes after its `fd`, counted in `payload_len`. -/
def paddedClose : Bytes := int32Bytes 1 ++ int32Bytes 6 ++ int32Bytes 3 ++ [7, 7]

theorem session_replies_spec_paddedClose :
    ∃ p, Reach ⟨loopbackEnv.link, zeroFs, loopbackEnv.stale⟩ (Proc.start paddedClose) p ∧
      p.calls = [.close 3] ∧
      Event.replies p.events = Event.replies (specEvents zeroFs [] p.calls) ∧
      p.conn.wire = loopbackEnv.link.delivered 0 (Event.replies (specEvents zeroFs [] p.calls)) := by
  have h : Reach ⟨loopbackEnv.link, zeroFs, loopbackEnv.stale⟩ (Proc.start paddedClose) _ :=
    @Reach.step _ _ _ _ 3 true .start rfl
  exact ⟨_, h, rfl,
    session_replies_spec ⟨loopbackEnv.link, zeroFs, loopbackEnv.stale⟩ zeroFs_servable _ _ h⟩

/-- Up to each child's first UB or call on `sessfd`, with a file system that answers each child
alone, every child has sent only §4.2's replies to its calls, under every schedule. -/
theorem listener_replies_spec (os : Os) (hI : os.Isolated)
    (hs : ∀ log i c, (os.answer log i c).Servable c) (s : Server) (h : Server.Reach os s) (i : Nat)
    (ch : Child) (hch : s.children[i]? = some ch) :
    Event.replies ch.proc.events = Event.replies (specEvents (os.soloFs i) [] ch.proc.calls) ∧
      ch.proc.conn.wire =
        (os.link i).delivered 0 (Event.replies (specEvents (os.soloFs i) [] ch.proc.calls)) := by
  obtain ⟨c, hc, -⟩ := h.inv.runs i ch hch
  have hr := (h.solo hI i ch c hch hc).reach
  have hrep := hr.replies fun done c => hs _ i c
  exact ⟨hrep, hrep ▸ hr.wireInv.1⟩

def paddedOs : Os :=
  ⟨[paddedClose], fun _ => false, fun _ => false, fun _ => loopbackEnv.link,
    fun _ => loopbackEnv.stale, fun _ _ c => zeroFs [] c⟩

theorem listener_replies_spec_paddedClose :
    ∃ s ch, Server.Reach paddedOs s ∧ s.children[0]? = some ch ∧ ch.proc.calls = [.close 3] ∧
      Event.replies ch.proc.events = Event.replies (specEvents (paddedOs.soloFs 0) [] ch.proc.calls) ∧
      ch.proc.conn.wire = (paddedOs.link 0).delivered 0
        (Event.replies (specEvents (paddedOs.soloFs 0) [] ch.proc.calls)) := by
  have h : Server.Reach paddedOs _ := .step (.pass 0 3) (.step .accept .init rfl) rfl
  exact ⟨_, _, h, rfl, rfl, listener_replies_spec paddedOs (fun _ _ _ _ => rfl)
    (fun _ _ c => zeroFs_servable [] c) _ h 0 _ rfl⟩

/-- The replies child `i` gets when the calls of `log` run one at a time after `done`. -/
def Os.logReplies (os : Os) (i : Nat) : List (Nat × Call) → List (Nat × Call) → List Bytes
  | _, [] => []
  | done, e :: es => (if e.1 = i then [specReply e.2 (os.answer done e.1 e.2)] else []) ++
      os.logReplies i (done ++ [e]) es

theorem Os.logReplies_append (os : Os) (i : Nat) (done es es' : List (Nat × Call)) :
    os.logReplies i done (es ++ es') = os.logReplies i done es ++ os.logReplies i (done ++ es) es' := by
  induction es generalizing done with
  | nil => simp [Os.logReplies]
  | cons e' es ih => simp [Os.logReplies, ih, List.append_assoc]

theorem Os.logReplies_of_not_mem (os : Os) {i : Nat} {done es : List (Nat × Call)}
    (h : ∀ e ∈ es, e.1 ≠ i) : os.logReplies i done es = [] := by
  induction es generalizing done with
  | nil => rfl
  | cons e es ih =>
    simp only [Os.logReplies, if_neg (h e (List.mem_cons_self _ _)), List.nil_append]
    exact ih fun e' he' => h e' (List.mem_cons_of_mem _ he')

/-- Each child has sent the replies of its calls in a sequential run of the server's log. -/
def Server.LogReplies (os : Os) (s : Server) : Prop :=
  ∀ (i : Nat) (ch : Child), s.children[i]? = some ch →
    Event.replies ch.proc.events = os.logReplies i [] s.log

section LogReplies

variable {os : Os} {s : Server} (hs : ∀ log i c, (os.answer log i c).Servable c)

include hs

theorem Server.LogReplies.passed {i fuel : Nat} {p : Proc} {r : Except Stop (Bool × Proc)}
    (hrep : s.LogReplies os) (hp : s.children[i]? = some (.serving p))
    (hsv : serve (os.env i fun _ => os.answer s.log i) fuel p = r) :
    (s.passed i p r).LogReplies os := by
  have hlt := (List.getElem?_eq_some_iff.mp hp).1
  have hpi : Event.replies p.events = os.logReplies i [] s.log := hrep i _ hp
  obtain ⟨new, hc, he⟩ : ∃ new, (Child.after p r).proc.calls = p.calls ++ new ∧
      Event.replies (Child.after p r).proc.events =
        Event.replies p.events ++ os.logReplies i s.log (new.map fun c => (i, c)) := by
    rcases r with e | ⟨_ | _, p'⟩
    · exact ⟨[], (List.append_nil _).symm, (List.append_nil _).symm⟩
    · obtain ⟨c, -, -, -, -, ⟨-, rfl⟩ | ⟨h, -⟩⟩ := serve_cases hsv
      · exact ⟨[], (List.append_nil _).symm, (List.append_nil _).symm⟩
      · cases h
    · obtain ⟨c, -, -, -, -, ⟨h, -⟩ | ⟨-, call, fID, buf, reply, rfl, ⟨hd, hh, hb⟩, -⟩⟩ :=
        serve_cases hsv
      · cases h
      · obtain ⟨-, rfl⟩ := handler_reply hh hb (hs _ _ _)
        exact ⟨[call], rfl, by simp [Child.after, Os.env, Os.logReplies]⟩
  intro j ch hch
  rw [Server.passed_children hlt] at hch
  rw [Server.passed_log, hc, List.drop_left, Os.logReplies_append, List.nil_append]
  by_cases hij : i = j
  · subst hij
    rw [if_pos rfl] at hch
    cases hch
    rw [he, hpi]
  · rw [if_neg hij] at hch
    have hnew : os.logReplies j s.log (new.map fun c => (i, c)) = [] :=
      Os.logReplies_of_not_mem os fun e he => by
        obtain ⟨c, -, rfl⟩ := List.mem_map.mp he
        exact hij
    rw [hnew, List.append_nil]
    exact hrep j ch hch

theorem Server.LogReplies.step {a : Action} {s' : Server} (hrep : s.LogReplies os) (hi : s.Inv os)
    (h : s.step os a = some s') : s'.LogReplies os := by
  rcases Server.step_cases h with ⟨hc, hl, -, -⟩ | ⟨c, -, -, rfl⟩ | ⟨i, fuel, p, r, hp, hsv, -, rfl⟩
  · intro j ch hch
    rw [hl]
    exact hrep j ch (hc ▸ hch)
  · intro j ch hch
    simp only [Server.forked] at hch ⊢
    rcases Nat.lt_or_ge j s.children.length with hlt | hge
    · exact hrep j ch (by rwa [List.getElem?_append_left hlt] at hch)
    · rw [List.getElem?_append_right hge] at hch
      obtain ⟨hlt, rfl⟩ := List.getElem?_eq_some_iff.mp hch
      obtain rfl : j = s.children.length := by simp at hlt; omega
      rw [Os.logReplies_of_not_mem os fun e he => (hi.log_lt e he).ne]
      simp [Proc.start, Event.replies]
  · exact hrep.passed hs hp hsv

theorem Server.Reach.logReplies (h : Server.Reach os s) : s.LogReplies os := by
  induction h with
  | init => intro i ch hch; simp [Server.init] at hch
  | step _ hr hstep ih => exact ih.step hs hr.inv hstep

end LogReplies

/-- Up to each child's first UB or call on `sessfd`, with one shared file system, each child has
sent exactly the replies that running the server's log one call at a time gives it. -/
theorem listener_serializable (os : Os) (hs : ∀ log i c, (os.answer log i c).Servable c)
    (s : Server) (h : Server.Reach os s) (i : Nat) (ch : Child) (hch : s.children[i]? = some ch) :
    Event.replies ch.proc.events = os.logReplies i [] s.log ∧
      ch.proc.conn.wire = (os.link i).delivered 0 (os.logReplies i [] s.log) := by
  have hrep := h.logReplies hs i ch hch
  obtain ⟨c, -, fs, hr, -⟩ := h.inv.runs i ch hch
  exact ⟨hrep, hrep ▸ hr.reach.wireInv.1⟩

theorem listener_serializable_paddedOs :
    ∃ s ch, Server.Reach paddedOs s ∧ s.children[0]? = some ch ∧ ch.proc.calls = [.close 3] ∧
      Event.replies ch.proc.events = paddedOs.logReplies 0 [] s.log ∧
      ch.proc.conn.wire = (paddedOs.link 0).delivered 0 (paddedOs.logReplies 0 [] s.log) := by
  have h : Server.Reach paddedOs _ := .step (.pass 0 3) (.step .accept .init rfl) rfl
  exact ⟨_, _, h, rfl, rfl,
    listener_serializable paddedOs (fun _ _ c => zeroFs_servable [] c) _ h 0 _ rfl⟩

/-- Each call made is well formed and is what its request's payload, bytes of `stream`, lays out. -/
structure ReadsRequests (stream : Bytes) (p : Proc) : Prop where
  stream_eq : p.conn.stream = stream
  pos_le : p.conn.pos ≤ stream.length
  calls : List.Forall₂ (fun c d => (c.opId : Int) = d.1 ∧ c.WF ∧ c.Decodes d.2 ∧ d.2 <:+: stream)
    p.calls (Event.dispatches p.events)

theorem ReadsRequests.serve {env : Env} {stream : Bytes} {p p' : Proc} {fuel : Nat} {more : Bool}
    (hi : ReadsRequests stream p) (h : serve env fuel p = .ok (more, p')) :
    ReadsRequests stream p' := by
  have hp : p.conn.pos ≤ p.conn.stream.length := hi.stream_eq ▸ hi.pos_le
  obtain ⟨c, -, -, hst, hpos, ⟨-, rfl⟩ | ⟨-, call, fID, buf, reply, rfl, ⟨hd, hh, hsv⟩, -, hbuf⟩⟩ :=
    serve_cases h
  · exact ⟨hst.trans hi.stream_eq, hi.stream_eq ▸ hst ▸ hpos hp, hi.calls⟩
  · obtain ⟨hb, hlen, hinf⟩ := hbuf hp
    rw [hb] at hsv
    obtain ⟨hop, hwf, hdec⟩ := handler_decodes fID hd hh _ hlen _ _ _ hsv
    refine ⟨hst.trans hi.stream_eq, hi.stream_eq ▸ hst ▸ hpos hp, ?_⟩
    simp only [Event.dispatches_append, Event.dispatches_dispatch_reply]
    exact List.rel_append hi.calls (.cons ⟨hop, hwf, hdec, hi.stream_eq ▸ hinf⟩ .nil)

end RemoteFileIO
