import RemoteFileIO.Handlers

/-! The handlers on payloads of any bytes, not only §4.2's encodings. A handler that returns has
read its payload as §4.2 lays out its op's arguments, followed by bytes it ignores, and has sent
§4.2's reply to the call it made: with `handler_contract`, layout and handlers are inverse. -/

namespace RemoteFileIO

theorem statusReply_malloc {n w : Nat} {rv : Block} {res errno : Int} {reply : Bytes}
    (hm : mallocOrExit n = .ok rv) (hr : statusReply rv w res errno = .ok reply) (hn : n = w + 8) :
    reply = int32Bytes (w + 4) ++ leBytes w (toSizeT res) ++ int32Bytes errno := by
  rw [mallocOrExit_eq_ok hm, statusReply_fresh res errno hn] at hr
  exact (Except.ok.inj hr).symm

/-- The end of the status handlers: `malloc` the reply, fill it, return it with the call. -/
theorem statusServed_ok {n w : Nat} {call c : Call} {res errno : Int} {r : Bytes}
    (h : (do
      let reply ← statusReply (← mallocOrExit n) w res errno
      pure ⟨call, reply⟩ : Except Stop Served) = .ok ⟨c, r⟩) (hn : n = w + 8) :
    c = call ∧ r = int32Bytes (w + 4) ++ leBytes w (toSizeT res) ++ int32Bytes errno := by
  obtain ⟨rv, hm, h⟩ := except_bind_eq_ok h
  obtain ⟨reply, hr, h⟩ := except_bind_eq_ok h
  cases h
  exact ⟨rfl, statusReply_malloc hm hr hn⟩

section Replies

variable {buf : Block} {run : Call → Outcome} {c : Call} {r : Bytes}

theorem serveOpen_reply (h : serveOpen buf run = .ok ⟨c, r⟩) :
    c.opId = 0 ∧ r = specReply c (run c) := by
  unfold serveOpen at h
  iterate 7 obtain ⟨_, -, h⟩ := except_bind_eq_ok h
  obtain ⟨rfl, rfl⟩ := statusServed_ok h rfl
  exact ⟨rfl, rfl⟩

theorem serveClose_reply (h : serveClose buf run = .ok ⟨c, r⟩) :
    c.opId = 1 ∧ r = specReply c (run c) := by
  unfold serveClose at h
  obtain ⟨_, -, h⟩ := except_bind_eq_ok h
  obtain ⟨rfl, rfl⟩ := statusServed_ok h rfl
  exact ⟨rfl, rfl⟩

theorem serveWrite_reply (h : serveWrite buf run = .ok ⟨c, r⟩) :
    c.opId = 2 ∧ r = specReply c (run c) := by
  unfold serveWrite at h
  iterate 4 obtain ⟨_, -, h⟩ := except_bind_eq_ok h
  obtain ⟨rfl, rfl⟩ := statusServed_ok h rfl
  exact ⟨rfl, rfl⟩

theorem serveLseek_reply (h : serveLseek buf run = .ok ⟨c, r⟩) :
    c.opId = 4 ∧ r = specReply c (run c) := by
  unfold serveLseek at h
  iterate 3 obtain ⟨_, -, h⟩ := except_bind_eq_ok h
  obtain ⟨rfl, rfl⟩ := statusServed_ok h rfl
  exact ⟨rfl, rfl⟩

theorem serveUnlink_reply (h : serveUnlink buf run = .ok ⟨c, r⟩) :
    c.opId = 6 ∧ r = specReply c (run c) := by
  unfold serveUnlink at h
  iterate 3 obtain ⟨_, -, h⟩ := except_bind_eq_ok h
  obtain ⟨rfl, rfl⟩ := statusServed_ok h rfl
  exact ⟨rfl, rfl⟩

theorem serveStat_reply (h : serveStat buf run = .ok ⟨c, r⟩) (ho : (run c).Servable c) :
    c.opId = 5 ∧ r = specReply c (run c) := by
  unfold serveStat at h
  iterate 3 obtain ⟨_, -, h⟩ := except_bind_eq_ok h
  obtain ⟨reply, hr, h⟩ := except_bind_eq_ok h
  cases h
  rw [statReply_eq _ _ ho] at hr
  exact ⟨rfl, (Except.ok.inj hr).symm⟩

theorem serveRead_reply (h : serveRead buf run = .ok ⟨c, r⟩) (ho : (run c).Servable c) :
    c.opId = 3 ∧ r = specReply c (run c) := by
  unfold serveRead at h
  obtain ⟨fildes, -, h⟩ := except_bind_eq_ok h
  obtain ⟨nbyte, -, h⟩ := except_bind_eq_ok h
  obtain ⟨buff, hb, h⟩ := except_bind_eq_ok h
  obtain ⟨buff, hw, h⟩ := except_bind_eq_ok h
  rw [mallocOrExit_eq_ok hb] at hw
  dsimp only at h
  split at h
  · rename_i hres
    obtain ⟨reply, hr, h⟩ := except_bind_eq_ok h
    cases h
    obtain ⟨hres', -⟩ | ⟨h0, hle, hlen, hbound⟩ := ho
    · exact absurd hres' hres
    rw [Block.write_fresh (by omega)] at hw
    cases hw
    rw [dataReply_of_nonneg _ h0 hlen (by omega) hbound] at hr
    cases hr
    exact ⟨rfl, by simp [specReply, max_eq_left h0, hlen, Int.add_comm]⟩
  · rename_i hres
    obtain ⟨rv, hm, h⟩ := except_bind_eq_ok h
    obtain ⟨reply, hr, h⟩ := except_bind_eq_ok h
    cases h
    rw [not_ne_iff] at hres
    refine ⟨rfl, ?_⟩
    rw [statusReply_malloc hm hr rfl]
    simp [specReply, hres]
    rfl

theorem serveGetdirentries_reply (h : serveGetdirentries buf run = .ok ⟨c, r⟩)
    (ho : (run c).Servable c) :
    c.opId = 7 ∧ r = specReply c (run c) := by
  unfold serveGetdirentries at h
  iterate 3 obtain ⟨_, -, h⟩ := except_bind_eq_ok h
  obtain ⟨buff, hw, h⟩ := except_bind_eq_ok h
  obtain ⟨reply, hr, h⟩ := except_bind_eq_ok h
  cases h
  obtain ⟨h0, hle, hlen, hbound⟩ := ho
  rw [Block.write_fresh (by omega)] at hw
  cases hw
  rw [dataReply_of_nonneg _ h0 hlen (by omega) hbound] at hr
  cases hr
  exact ⟨rfl, by simp [specReply, max_eq_left h0, hlen, Int.add_comm]⟩

theorem serveGetdirtree_reply (h : serveGetdirtree buf run = .ok ⟨c, r⟩) (ho : (run c).Servable c) :
    c.opId = 8 ∧ r = specReply c (run c) := by
  unfold serveGetdirtree at h
  obtain ⟨n, -, h⟩ := except_bind_eq_ok h
  obtain ⟨path, -, h⟩ := except_bind_eq_ok h
  dsimp only at h
  split at h
  · rename_i hto
    obtain ⟨reply, hr, h⟩ := except_bind_eq_ok h
    cases h
    rw [statusReply_fresh _ _ rfl] at hr
    cases hr
    exact ⟨rfl, by simp only [specReply, hto]; rfl⟩
  · rename_i t hto
    obtain ⟨⟨s, log⟩, hs, h⟩ := except_bind_eq_ok h
    obtain ⟨_, -, h⟩ := except_bind_eq_ok h
    obtain ⟨reply, hr, h⟩ := except_bind_eq_ok h
    cases h
    obtain ⟨henc, hroots⟩ := ho t hto
    obtain ⟨s', log', he, hlen, hdata, hfit, -⟩ := serializeTree_spec t henc
    obtain ⟨hsize, -⟩ := hfit hroots
    rw [he] at hs
    cases hs
    rw [treeReply_eq _ hlen hdata hsize (by omega)] at hr
    cases hr
    exact ⟨rfl, by simp only [specReply, hto]⟩

end Replies

/-- A handler that returns made a call of its op id and sent §4.2's reply, whatever the payload. -/
theorem handler_reply {fID : Int} {serve : Block → (Call → Outcome) → Except Stop Served}
    (hh : handler fID = some serve) {buf : Block} {run : Call → Outcome} {c : Call} {r : Bytes}
    (h : serve buf run = .ok ⟨c, r⟩) (ho : (run c).Servable c) :
    (c.opId : Int) = fID ∧ r = specReply c (run c) := by
  have hop : ∀ {n : Nat}, c.opId = n ∧ r = specReply c (run c) →
      (c.opId : Int) = n ∧ r = specReply c (run c) := fun ⟨h₁, h₂⟩ => ⟨congrArg _ h₁, h₂⟩
  rcases handler_eq_some hh with ⟨rfl, rfl⟩ | ⟨rfl, rfl⟩ | ⟨rfl, rfl⟩ | ⟨rfl, rfl⟩ | ⟨rfl, rfl⟩ |
    ⟨rfl, rfl⟩ | ⟨rfl, rfl⟩ | ⟨rfl, rfl⟩ | ⟨rfl, rfl⟩
  exacts [hop (serveOpen_reply h), hop (serveClose_reply h), hop (serveWrite_reply h),
    hop (serveRead_reply h ho), hop (serveLseek_reply h), hop (serveStat_reply h ho),
    hop (serveUnlink_reply h), hop (serveGetdirentries_reply h ho), hop (serveGetdirtree_reply h ho)]

theorem Block.peekInt_split {l : Bytes} {off : Nat} {x : Int}
    (h : Block.peekInt ⟨l.length, l⟩ off = .ok x) :
    l.drop off = int32Bytes x ++ l.drop (off + 4) ∧ -2^31 ≤ x ∧ x < 2^31 := by
  obtain ⟨v, hv, h⟩ := except_bind_eq_ok h
  obtain ⟨hs, hlt⟩ := Block.peek_split hv
  obtain rfl : toInt32 v = x := Except.ok.inj h
  exact ⟨by rwa [int32Bytes_toInt32 hlt], toInt32_range _⟩

theorem Block.peekOff_split {l : Bytes} {off : Nat} {x : Int}
    (h : Block.peekOff ⟨l.length, l⟩ off = .ok x) :
    l.drop off = int64Bytes x ++ l.drop (off + 8) ∧ -2^63 ≤ x ∧ x < 2^63 := by
  obtain ⟨v, hv, h⟩ := except_bind_eq_ok h
  obtain ⟨hs, hlt⟩ := Block.peek_split hv
  obtain rfl : toInt64 v = x := Except.ok.inj h
  exact ⟨by rwa [int64Bytes_toInt64 hlt], toInt64_range _⟩

/-- `b` holds the call's arguments as §4.2 lays them out, then bytes no handler reads; a path
field gives the path up to its first NUL. -/
def Call.Decodes : Call → Bytes → Prop
  | .open path flags mode, b => ∃ raw junk, path = CString.ofBuffer raw ∧
      b = int32Bytes flags ++ (leBytes 4 mode ++ (leBytes 8 raw.length ++ raw)) ++ junk
  | .stat path, b | .unlink path, b | .getdirtree path, b => ∃ raw junk,
      path = CString.ofBuffer raw ∧ b = int32Bytes raw.length ++ raw ++ junk
  | c, b => ∃ junk, b = c.payload ++ junk

/-- Each call's payload, with any bytes after it, decodes to the call. -/
theorem Call.decodes_payload (c : Call) (junk : Bytes) : c.Decodes (c.payload ++ junk) := by
  have hs : ∀ s : CString, s = CString.ofBuffer s.bytes := fun s => by
    rw [← CString.ofBuffer_append_nul, CString.ofBuffer_append_zero]
  cases c <;> first | exact ⟨junk, rfl⟩ | exact ⟨_, junk, hs _, rfl⟩

/-- `copyPath` on a buffer holding `l`: the path is the next `pathLen` bytes of `l` up to a NUL. -/
theorem copyPath_split {l : Bytes} {size : Nat} {pathLen : Int} {path : CString}
    (h : copyPath ⟨l.length, l⟩ ⟨size, []⟩ pathLen = .ok path) :
    ∃ raw, 4 + toSizeT pathLen ≤ l.length ∧ l.drop 4 = raw ++ l.drop (4 + toSizeT pathLen) ∧
      raw.length = toSizeT pathLen ∧ path = CString.ofBuffer raw := by
  obtain ⟨raw, hr, h⟩ := except_bind_eq_ok h
  obtain ⟨p₁, hw₁, h⟩ := except_bind_eq_ok h
  obtain ⟨p₂, hw₂, h⟩ := except_bind_eq_ok h
  cases h
  obtain ⟨hle, hs, hl⟩ := Block.read_split hr
  obtain ⟨rfl, -⟩ := Block.write_end_ok hw₁ rfl
  obtain ⟨rfl, -⟩ := Block.write_end_ok hw₂ (by simpa using hl)
  exact ⟨raw, hle, hs, hl, by simp [CString.ofBuffer_append_nul]⟩

section Decodes

variable {payload : Bytes} {run : Call → Outcome} {c : Call} {r : Bytes}

theorem serveOpen_decodes (h : serveOpen ⟨payload.length, payload⟩ run = .ok ⟨c, r⟩)
    (hlen : payload.length < 2^31) : c.opId = 0 ∧ c.WF ∧ c.Decodes payload := by
  unfold serveOpen at h
  obtain ⟨flag, hf, h⟩ := except_bind_eq_ok h
  obtain ⟨m, hm, h⟩ := except_bind_eq_ok h
  obtain ⟨pathLen, hp, h⟩ := except_bind_eq_ok h
  obtain ⟨blk, hb, h⟩ := except_bind_eq_ok h
  obtain ⟨raw, hr, h⟩ := except_bind_eq_ok h
  obtain ⟨p₁, hw₁, h⟩ := except_bind_eq_ok h
  obtain ⟨p₂, hw₂, h⟩ := except_bind_eq_ok h
  iterate 2 obtain ⟨_, -, h⟩ := except_bind_eq_ok h
  cases h
  obtain ⟨hs₀, h₁, h₂⟩ := Block.peekInt_split hf
  obtain ⟨hs₁, h₃⟩ := Block.peek_split hm
  obtain ⟨hs₂, -⟩ := Block.peek_split hp
  obtain ⟨hle, hs₃, hl⟩ := Block.read_split hr
  rw [mallocOrExit_eq_ok hb] at hw₁
  obtain ⟨rfl, -⟩ := Block.write_end_ok hw₁ rfl
  obtain ⟨rfl, -⟩ := Block.write_end_ok hw₂ (by simpa using hl)
  have hpath : CString.ofBuffer (([] ++ raw) ++ [0]) = CString.ofBuffer raw := by
    simp [CString.ofBuffer_append_nul]
  have hpl : (CString.ofBuffer raw).bytes.length ≤ raw.length := CString.length_ofBuffer_le raw
  refine ⟨rfl, ⟨h₁, h₂, h₃, by rw [hpath]; omega⟩, raw, payload.drop (16 + pathLen), hpath, ?_⟩
  simp only [Nat.reduceAdd, List.drop_zero] at hs₀ hs₁ hs₂
  rw [hl, List.append_assoc, List.append_assoc, List.append_assoc, ← hs₃, ← hs₂, ← hs₁]
  exact hs₀

theorem serveClose_decodes (h : serveClose ⟨payload.length, payload⟩ run = .ok ⟨c, r⟩) :
    c.opId = 1 ∧ c.WF ∧ c.Decodes payload := by
  unfold serveClose at h
  obtain ⟨fd, hfd, h⟩ := except_bind_eq_ok h
  iterate 2 obtain ⟨_, -, h⟩ := except_bind_eq_ok h
  cases h
  obtain ⟨hs, hr⟩ := Block.peekInt_split hfd
  exact ⟨rfl, hr, _, by simpa using hs⟩

theorem serveWrite_decodes (h : serveWrite ⟨payload.length, payload⟩ run = .ok ⟨c, r⟩)
    (hlen : payload.length < 2^31) : c.opId = 2 ∧ c.WF ∧ c.Decodes payload := by
  unfold serveWrite at h
  obtain ⟨fd, hfd, h⟩ := except_bind_eq_ok h
  obtain ⟨nbyte, hn, h⟩ := except_bind_eq_ok h
  obtain ⟨raw, hr, h⟩ := except_bind_eq_ok h
  obtain ⟨buff, hb, h⟩ := except_bind_eq_ok h
  iterate 2 obtain ⟨_, -, h⟩ := except_bind_eq_ok h
  cases h
  obtain ⟨hs₀, h₁, h₂⟩ := Block.peekInt_split hfd
  obtain ⟨hs₁, -⟩ := Block.peek_split hn
  obtain ⟨hle, hs₂, hl⟩ := Block.read_split hr
  have hdata : buff.data = raw := by
    simp only [memcpyTo, malloc] at hb
    split_ifs at hb
    simpa using congrArg Block.data (Block.write_end_ok hb rfl).1
  refine ⟨rfl, ⟨h₁, h₂, by rw [hdata]; omega⟩, payload.drop (12 + nbyte), ?_⟩
  simp only [Nat.reduceAdd, List.drop_zero] at hs₀ hs₁
  rw [Call.payload, hdata, hl, List.append_assoc, List.append_assoc, ← hs₂, ← hs₁]
  exact hs₀

theorem serveRead_decodes (h : serveRead ⟨payload.length, payload⟩ run = .ok ⟨c, r⟩) :
    c.opId = 3 ∧ c.WF ∧ c.Decodes payload := by
  unfold serveRead at h
  obtain ⟨fd, hfd, h⟩ := except_bind_eq_ok h
  obtain ⟨nbyte, hn, h⟩ := except_bind_eq_ok h
  obtain ⟨buff, hb, h⟩ := except_bind_eq_ok h
  obtain ⟨_, -, h⟩ := except_bind_eq_ok h
  have hc : c = .read fd nbyte := by
    dsimp only at h
    split at h
    all_goals
      repeat obtain ⟨_, -, h⟩ := except_bind_eq_ok h
      cases h; rfl
  subst hc
  obtain ⟨hs₀, h₁, h₂⟩ := Block.peekInt_split hfd
  obtain ⟨hs₁, -⟩ := Block.peek_split hn
  have hmal : nbyte ≤ ptrdiffMax := by
    unfold mallocOrExit malloc at hb
    split_ifs at hb with hm
    exact hm
  refine ⟨rfl, ⟨h₁, h₂, by unfold ptrdiffMax at hmal; omega⟩, payload.drop 12, ?_⟩
  simp only [Nat.reduceAdd, List.drop_zero] at hs₀ hs₁
  rw [Call.payload, List.append_assoc, ← hs₁]
  exact hs₀

theorem serveLseek_decodes (h : serveLseek ⟨payload.length, payload⟩ run = .ok ⟨c, r⟩) :
    c.opId = 4 ∧ c.WF ∧ c.Decodes payload := by
  unfold serveLseek at h
  obtain ⟨fd, hfd, h⟩ := except_bind_eq_ok h
  obtain ⟨off, ho, h⟩ := except_bind_eq_ok h
  obtain ⟨pos, hp, h⟩ := except_bind_eq_ok h
  iterate 2 obtain ⟨_, -, h⟩ := except_bind_eq_ok h
  cases h
  obtain ⟨hs₀, h₁, h₂⟩ := Block.peekInt_split hfd
  obtain ⟨hs₁, h₃, h₄⟩ := Block.peekOff_split ho
  obtain ⟨hs₂, h₅, h₆⟩ := Block.peekInt_split hp
  refine ⟨rfl, ⟨h₁, h₂, h₃, h₄, h₅, h₆⟩, payload.drop 16, ?_⟩
  simp only [Nat.reduceAdd, List.drop_zero] at hs₀ hs₁ hs₂
  rw [Call.payload, List.append_assoc, List.append_assoc, ← hs₂, ← hs₁]
  exact hs₀

/-- The path handlers' decoding: a path length as an `int`, then that many bytes. -/
theorem copyPath_decodes {n : Int} {size : Nat} {path : CString}
    (hn : Block.peekInt ⟨payload.length, payload⟩ 0 = .ok n)
    (hp : copyPath ⟨payload.length, payload⟩ ⟨size, []⟩ n = .ok path) (hlen : payload.length < 2^31) :
    4 + path.bytes.length < 2^31 ∧ ∃ raw junk, path = CString.ofBuffer raw ∧
      payload = int32Bytes raw.length ++ raw ++ junk := by
  obtain ⟨hs₀, h₁, h₂⟩ := Block.peekInt_split hn
  obtain ⟨raw, hle, hs₁, hl, rfl⟩ := copyPath_split hp
  have hn' : ((toSizeT n : Nat) : Int) = n := by
    have h₄ : 4 + (n % 2^64).toNat ≤ payload.length := hle
    unfold toSizeT; omega
  have hpl : (CString.ofBuffer raw).bytes.length ≤ raw.length := CString.length_ofBuffer_le raw
  refine ⟨by omega, raw, payload.drop (4 + toSizeT n), rfl, ?_⟩
  simp only [Nat.reduceAdd, List.drop_zero] at hs₀
  rw [hl, hn', List.append_assoc, ← hs₁]
  exact hs₀

theorem serveStat_decodes (h : serveStat ⟨payload.length, payload⟩ run = .ok ⟨c, r⟩)
    (hlen : payload.length < 2^31) : c.opId = 5 ∧ c.WF ∧ c.Decodes payload := by
  unfold serveStat at h
  obtain ⟨n, hn, h⟩ := except_bind_eq_ok h
  obtain ⟨blk, hb, h⟩ := except_bind_eq_ok h
  obtain ⟨path, hp, h⟩ := except_bind_eq_ok h
  obtain ⟨_, -, h⟩ := except_bind_eq_ok h
  cases h
  rw [mallocOrExit_eq_ok hb] at hp
  exact ⟨rfl, copyPath_decodes hn hp hlen⟩

theorem serveUnlink_decodes (h : serveUnlink ⟨payload.length, payload⟩ run = .ok ⟨c, r⟩)
    (hlen : payload.length < 2^31) : c.opId = 6 ∧ c.WF ∧ c.Decodes payload := by
  unfold serveUnlink at h
  obtain ⟨n, hn, h⟩ := except_bind_eq_ok h
  obtain ⟨blk, hb, h⟩ := except_bind_eq_ok h
  obtain ⟨path, hp, h⟩ := except_bind_eq_ok h
  iterate 2 obtain ⟨_, -, h⟩ := except_bind_eq_ok h
  cases h
  rw [mallocOrExit_eq_ok hb] at hp
  exact ⟨rfl, copyPath_decodes hn hp hlen⟩

theorem serveGetdirentries_decodes
    (h : serveGetdirentries ⟨payload.length, payload⟩ run = .ok ⟨c, r⟩) :
    c.opId = 7 ∧ c.WF ∧ c.Decodes payload := by
  unfold serveGetdirentries at h
  obtain ⟨fd, hfd, h⟩ := except_bind_eq_ok h
  obtain ⟨nbyte, hn, h⟩ := except_bind_eq_ok h
  obtain ⟨bs, hb, h⟩ := except_bind_eq_ok h
  iterate 2 obtain ⟨_, -, h⟩ := except_bind_eq_ok h
  cases h
  obtain ⟨hs₀, h₁, h₂⟩ := Block.peekInt_split hfd
  obtain ⟨hs₁, h₃⟩ := Block.peek_split hn
  obtain ⟨-, hs₂, hl⟩ := Block.read_split hb
  refine ⟨rfl, ⟨h₁, h₂, h₃, toInt64_range _⟩, payload.drop 20, ?_⟩
  simp only [Nat.reduceAdd, List.drop_zero] at hs₀ hs₁ hs₂
  have hv := leValue_lt bs
  rw [hl] at hv
  rw [Call.payload, int64Bytes_toInt64 hv, leBytes_leValue hl, List.append_assoc, List.append_assoc,
    ← hs₂, ← hs₁]
  exact hs₀

theorem serveGetdirtree_decodes (h : serveGetdirtree ⟨payload.length, payload⟩ run = .ok ⟨c, r⟩)
    (hlen : payload.length < 2^31) : c.opId = 8 ∧ c.WF ∧ c.Decodes payload := by
  unfold serveGetdirtree at h
  obtain ⟨n, hn, h⟩ := except_bind_eq_ok h
  obtain ⟨path, hp, h⟩ := except_bind_eq_ok h
  have hc : c = .getdirtree path := by
    dsimp only at h
    split at h
    · obtain ⟨_, -, h⟩ := except_bind_eq_ok h
      cases h; rfl
    · obtain ⟨⟨_, _⟩, -, h⟩ := except_bind_eq_ok h
      iterate 2 obtain ⟨_, -, h⟩ := except_bind_eq_ok h
      cases h; rfl
  subst hc
  exact ⟨rfl, copyPath_decodes hn hp hlen⟩

end Decodes

/-- Whatever the payload's bytes, a handler that returns has made a well-formed call of its op id,
and the payload holds that call's arguments in §4.2's layout, then bytes it did not read. -/
theorem handler_decodes (fID : Int) (serve : Block → (Call → Outcome) → Except Stop Served)
    (hh : handler fID = some serve) (payload : Bytes) (hlen : payload.length < 2^31)
    (run : Call → Outcome) (c : Call) (r : Bytes) (h : serve ⟨payload.length, payload⟩ run = .ok ⟨c, r⟩) :
    (c.opId : Int) = fID ∧ c.WF ∧ c.Decodes payload := by
  have hop : ∀ {n : Nat}, c.opId = n ∧ c.WF ∧ c.Decodes payload →
      (c.opId : Int) = n ∧ c.WF ∧ c.Decodes payload := fun ⟨h₁, h₂⟩ => ⟨congrArg _ h₁, h₂⟩
  rcases handler_eq_some hh with ⟨rfl, rfl⟩ | ⟨rfl, rfl⟩ | ⟨rfl, rfl⟩ | ⟨rfl, rfl⟩ | ⟨rfl, rfl⟩ |
    ⟨rfl, rfl⟩ | ⟨rfl, rfl⟩ | ⟨rfl, rfl⟩ | ⟨rfl, rfl⟩
  exacts [hop (serveOpen_decodes h hlen), hop (serveClose_decodes h), hop (serveWrite_decodes h hlen),
    hop (serveRead_decodes h), hop (serveLseek_decodes h), hop (serveStat_decodes h hlen),
    hop (serveUnlink_decodes h hlen), hop (serveGetdirentries_decodes h),
    hop (serveGetdirtree_decodes h hlen)]

end RemoteFileIO
