import RemoteFileIO.Listener

/-! The client side in this repository, interpose/mylib.c. Each interposed call connects to the
server, sends the call's name as text, closes the connection and makes the call locally. The
server reads a connection's first byte as the low byte of an op id, and every name starts with
a letter, so `serve` dispatches none of them. -/

namespace RemoteFileIO

/-- The texts mylib.c's interposed functions pass to `sendToServer`, in the file's order. -/
def mylibMessages : List String :=
  ["open", "close", "read", "write", "lseek", "stat", "unlink", "getdirentries", "getdirtree",
    "freedirtree"]

/-- `sendToServer(msg)`: one `send(sockfd, msg, strlen(msg), 0)` on a fresh connection. -/
def sendToServer (msg : String) (cut : SendCut) : Bytes := cut.deliver msg.toUTF8.data.toList

theorem SendCut.head_deliver (cut : SendCut) (msg : Bytes) :
    ∀ b ∈ (cut.deliver msg).head?, b ∈ msg.head? := by
  intro b hb
  cases cut with
  | whole => exact hb
  | part k => cases k <;> cases msg <;> simp_all [SendCut.deliver]
  | fail => simp [SendCut.deliver] at hb

theorem sendToServer_head {m : String} (hm : m ∈ mylibMessages) (cut : SendCut) :
    ∀ b ∈ (sendToServer m cut).head?, 8 < b.toNat := by
  have hall : ∀ m ∈ mylibMessages, ∀ b ∈ m.toUTF8.data.toList.head?, 8 < b.toNat := by decide
  exact fun b hb => hall m hm b (SendCut.head_deliver cut _ b hb)

theorem toInt32_leValue_cons {b : UInt8} {bs : Bytes} (hlen : bs.length ≤ 3)
    (h₀ : 0 ≤ toInt32 (leValue (b :: bs))) (h₈ : toInt32 (leValue (b :: bs)) ≤ 8) : b.toNat ≤ 8 := by
  have hv := leValue_lt bs
  have hb := b.toNat_lt
  have hp : 256 ^ bs.length ≤ 256 ^ 3 := Nat.pow_le_pow_right (by norm_num) hlen
  simp only [leValue] at h₀ h₈
  unfold toInt32 at h₀ h₈
  split at h₈ <;> omega

section Unserved

variable {env : Env} {p p' : Proc} {fuel : Nat} {more : Bool}

theorem serveRequest_true {conn : Conn} {fID bufSize : Int}
    (h : serveRequest env fuel p conn fID bufSize = .ok (true, p')) : 0 ≤ fID ∧ fID ≤ 8 := by
  by_contra hf
  rw [serveRequest, handler_eq_none (by omega)] at h
  split at h
  · cases h
  · obtain ⟨s, -, h⟩ := except_bind_eq_ok h
    cases h

theorem serve_true_first_byte (h : serve env fuel p = .ok (true, p')) :
    ∃ b, p.conn.stream[p.conn.pos]? = some b ∧ b.toNat ≤ 8 := by
  unfold serve at h
  dsimp only at h
  split at h
  · split at h <;> cases h
  rename_i hrv
  have hpos : p.conn.pos < p.conn.stream.length := by
    by_contra hc
    rw [recv_eof _ _ (by omega)] at hrv
    exact hrv le_rfl
  obtain ⟨k, hk⟩ : ∃ k, env.link.recvSeg p.conn.pos = some k := by
    cases hk : env.link.recvSeg p.conn.pos with
    | none => rw [recv_fail hpos (by norm_num) hk] at hrv; simp at hrv
    | some k => exact ⟨k, rfl⟩
  obtain ⟨n, hn, -, -, hrecv⟩ := recv_some hpos (by norm_num : 0 < 8) hk
  obtain ⟨fID, hf, h⟩ := except_bind_eq_ok h
  obtain ⟨bufSize, -, h⟩ := except_bind_eq_ok h
  obtain ⟨t, hdata⟩ : ∃ t, storeAt (env.stale p.conn.pos) 0 ((p.conn.stream.drop p.conn.pos).take n) =
      p.conn.stream[p.conn.pos] :: t := by
    obtain ⟨m, rfl⟩ : ∃ m, n = m + 1 := ⟨n - 1, by omega⟩
    rw [storeAt_zero, List.drop_eq_getElem_cons hpos]
    exact ⟨_, rfl⟩
  simp only [hrecv, hdata, Block.peekInt, Block.peek, Block.read_mk_of_le (by norm_num : 0 + 4 ≤ 8),
    List.drop_zero, except_ok_bind, except_pure, Except.ok.injEq] at hf
  obtain ⟨h₀, h₈⟩ := serveRequest_true h
  rw [← hf, List.take_succ_cons] at h₀ h₈
  exact ⟨_, List.getElem?_eq_getElem hpos, toInt32_leValue_cons (by simp) h₀ h₈⟩

theorem serve_start_unserved {stream : Bytes} (hb : ∀ b ∈ stream.head?, 8 < b.toNat)
    (h : serve env fuel (Proc.start stream) = .ok (more, p')) :
    more = false ∧ p'.calls = [] ∧ p'.events = [] ∧ p'.conn.wire = [] := by
  cases more
  · obtain ⟨c, hw, -, -, -, ⟨-, rfl⟩ | ⟨hm, -⟩⟩ := serve_cases h
    · exact ⟨rfl, rfl, rfl, hw⟩
    · cases hm
  · obtain ⟨b, hb', hle⟩ := serve_true_first_byte h
    have := hb b (by simpa [Proc.start, List.head?_eq_getElem?] using hb')
    omega

theorem Serves.eq_start {stream : Bytes} (hb : ∀ b ∈ stream.head?, 8 < b.toNat)
    (h : Serves env (Proc.start stream) p) : p = Proc.start stream := by
  induction h with
  | start => rfl
  | pass _ hs ih => subst ih; exact absurd (serve_start_unserved hb hs).1 (by decide)

theorem Child.Runs.unserved {stream : Bytes} {ch : Child} (hb : ∀ b ∈ stream.head?, 8 < b.toNat)
    (h : ch.Runs env (Proc.start stream)) :
    ch.proc.calls = [] ∧ ch.proc.events = [] ∧ ch.proc.conn.wire = [] := by
  cases ch with
  | serving p => rw [Child.proc_serving, Serves.eq_start hb h]; exact ⟨rfl, rfl, rfl⟩
  | stopped p e => rw [Child.proc_stopped, Serves.eq_start hb h.1]; exact ⟨rfl, rfl, rfl⟩
  | exited p =>
    obtain ⟨_ | fuel, h⟩ := h
    · cases h
    rw [session] at h
    obtain ⟨⟨more, q⟩, hs, h⟩ := except_bind_eq_ok h
    obtain ⟨rfl, hq⟩ := serve_start_unserved hb hs
    obtain rfl : q = p := by simpa using h
    exact hq

end Unserved

/-- A server whose clients are all mylib.c's connections makes no file-system call and sends no
byte to any of them, whatever each `send` delivered, under every schedule. -/
theorem listener_ignores_mylib (os : Os)
    (hc : ∀ c ∈ os.clients, ∃ m ∈ mylibMessages, ∃ cut, c = sendToServer m cut) (s : Server)
    (h : Server.Reach os s) :
    s.log = [] ∧ ∀ ch ∈ s.children, ch.proc.calls = [] ∧ ch.proc.events = [] ∧ ch.proc.conn.wire = [] := by
  have hi := h.inv
  have hch : ∀ (i : Nat) (ch : Child), s.children[i]? = some ch →
      ch.proc.calls = [] ∧ ch.proc.events = [] ∧ ch.proc.conn.wire = [] := by
    intro i ch hch
    obtain ⟨c, hc', fs, hr, -⟩ := hi.runs i ch hch
    obtain ⟨m, hm, cut, rfl⟩ := hc c (List.mem_iff_getElem?.mpr ⟨i, hc'⟩)
    exact hr.unserved (sendToServer_head hm cut)
  refine ⟨List.eq_nil_iff_forall_not_mem.mpr fun e he => ?_, fun ch hm => ?_⟩
  · obtain ⟨ch, hch'⟩ : ∃ ch, s.children[e.1]? = some ch :=
      ⟨_, List.getElem?_eq_getElem (hi.log_lt e he)⟩
    have hf := hi.log_child e.1 ch hch'
    rw [(hch e.1 ch hch').1, List.map_nil] at hf
    exact List.filter_eq_nil_iff.mp hf e he (by simp)
  · obtain ⟨i, hi'⟩ := List.mem_iff_getElem?.mp hm
    exact hch i ch hi'

/-- The interposed calls test2.c's `main` makes, in order, each on its own connection. -/
def test2Messages : List String :=
  ["open", "open", "read", "close", "close", "lseek", "stat", "unlink", "getdirentries"]

/-- test2.c run through the library against the server, each `send` delivering all its bytes. -/
def test2Os : Os :=
  ⟨test2Messages.map (sendToServer · .whole), fun _ => false, fun _ => false,
    fun _ => loopbackEnv.link, fun _ => loopbackEnv.stale, fun _ _ _ => ⟨0, 0, [], none⟩⟩

theorem listener_ignores_mylib_test2 :
    ∃ s, Server.Reach test2Os s ∧ s.children.length = 2 ∧ s.log = [] ∧
      ∀ ch ∈ s.children, ch.proc.calls = [] ∧ ch.proc.events = [] ∧ ch.proc.conn.wire = [] := by
  have hc : ∀ c ∈ test2Os.clients, ∃ m ∈ mylibMessages, ∃ cut, c = sendToServer m cut := by
    have hsub : ∀ m ∈ test2Messages, m ∈ mylibMessages := by decide
    intro c hc
    obtain ⟨m, hm, rfl⟩ := List.mem_map.mp hc
    exact ⟨m, hsub m hm, .whole, rfl⟩
  have h : Server.Reach test2Os _ :=
    .step (.pass 1 3) (.step (.pass 0 3) (.step .accept (.step .accept .init rfl) rfl) rfl) rfl
  exact ⟨_, h, rfl, listener_ignores_mylib test2Os hc _ h⟩

end RemoteFileIO
