import RemoteFileIO.DirTree

/-! `serializaTreeNode` and `serializeTree` as server.c computes them: a node's header and name
in a block of its own, then, for a node with children, a `MAXMSGLEN`-byte buffer that each
child's serialization is appended to, in place, into a 400-byte copy, or into a copy of the
exact size needed. The model stores what each `memcpy` copies as if every block were large
enough and logs both ends of every copy, so that the contents and the bounds are separate
results. -/
namespace RemoteFileIO

open DirTreeNode

/-- `struct info` (`ret`): a buffer and the length of the serialization in it. -/
structure Ret where
  tmp : Block
  len : Int

def Ret.bytes (r : Ret) : Bytes := r.tmp.data.take r.len.toNat

/-- One end of a `memcpy`: `count` bytes at offset `off` of a block of `size` bytes. -/
structure Access where
  size : Nat
  off : Nat
  count : Nat
  deriving DecidableEq

def Access.Fits (a : Access) : Prop := a.off + a.count ≤ a.size

instance (a : Access) : Decidable a.Fits := inferInstanceAs (Decidable (_ ≤ _))

/-- `memcpy(dst + off, src, n)` in the encoder: stored whether or not it fits, both ends logged. -/
def copy (dst : Block) (off : Int) (src : Block) (n : Int) : Block × List Access :=
  ({ dst with data := storeAt dst.data (toSizeT off) (src.data.take (toSizeT n)) },
   [⟨dst.size, toSizeT off, toSizeT n⟩, ⟨src.size, 0, toSizeT n⟩])

/-- `n = (int)strlen(name)`, then `n`, `num_subdirs` and the name in a block of `n + 8` bytes. -/
def serializaTreeNode (t : DirTreeNode) : Except Stop (Ret × List Access) := do
  let n := toInt32 t.name.bytes.length
  let buf ← mallocOrExit (toSizeT (n + 8))
  let (buf, l₁) := copy buf 0 ⟨4, int32Bytes n⟩ 4
  let (buf, l₂) := copy buf 4 ⟨4, int32Bytes t.numSubdirs⟩ 4
  let (buf, l₃) := copy buf 8 ⟨t.name.bytes.length + 1, t.name.bytes ++ [0]⟩ n
  pure (⟨buf, toInt32 (n + 8)⟩, l₁ ++ l₂ ++ l₃)

/-- A pass of the child loop: append in place, or grow to `2 * size` or `offset + len + size`. -/
def appendChild (size : Int) (buf : Block) (offset : Int) (tmp : Ret) :
    Except Stop (Block × List Access) :=
  if toInt32 (offset + tmp.len) > size then do
    let resize ← mallocOrExit (if toInt32 (offset + tmp.len) > 2 * size
      then toSizeT (toInt32 (offset + tmp.len + size)) else toSizeT (size * 2))
    let (resize, l₁) := copy resize 0 buf offset
    let (resize, l₂) := copy resize offset tmp.tmp tmp.len
    pure (resize, l₁ ++ l₂)
  else pure (copy buf offset tmp.tmp tmp.len)

mutual
/-- A leaf is its own block; any other node appends each child to a `MAXMSGLEN`-byte buffer. -/
def serializeTree : DirTreeNode → Except Stop (Ret × List Access)
  | mk name subdirs =>
    if subdirs.length = 0 then serializaTreeNode (mk name subdirs)
    else do
      let buf ← mallocOrExit (toSizeT maxMsgLen)
      let (root, l₁) ← serializaTreeNode (mk name subdirs)
      let (buf, l₂) := copy buf 0 root.tmp root.len
      let (buf, offset, l₃) ← appendSubdirs maxMsgLen subdirs (buf, root.len, l₁ ++ l₂)
      pure (⟨buf, offset⟩, l₃)
/-- The child loop; `size` keeps its first `MAXMSGLEN`, since the loop never reassigns it. -/
def appendSubdirs (size : Int) :
    List DirTreeNode → Block × Int × List Access → Except Stop (Block × Int × List Access)
  | [], st => pure st
  | t :: ts, (buf, offset, log) => do
    let (tmp, l₁) ← serializeTree t
    let (buf, l₂) ← appendChild size buf offset tmp
    appendSubdirs size ts (buf, toInt32 (offset + tmp.len), log ++ l₁ ++ l₂)
end

def nodeLog (k : Nat) : List Access :=
  [⟨k + 8, 0, 4⟩, ⟨4, 0, 4⟩, ⟨k + 8, 4, 4⟩, ⟨4, 0, 4⟩, ⟨k + 8, 8, k⟩, ⟨k + 1, 0, k⟩]

theorem nodeLog_fits (k : Nat) : ∀ a ∈ nodeLog k, a.Fits := by
  simp [nodeLog, Access.Fits]; omega

theorem serializaTreeNode_eq {t : DirTreeNode} (h : t.name.bytes.length + 8 < 2^31) :
    serializaTreeNode t = .ok (⟨⟨t.name.bytes.length + 8, nodeBytes t⟩, t.name.bytes.length + 8⟩,
      nodeLog t.name.bytes.length) := by
  have hn : toInt32 t.name.bytes.length = t.name.bytes.length := toInt32_of_lt (by omega) (by omega)
  have h8 : toInt32 ((t.name.bytes.length : Int) + 8) = t.name.bytes.length + 8 :=
    toInt32_of_lt (by omega) (by omega)
  have hsz : toSizeT ((t.name.bytes.length : Int) + 8) = t.name.bytes.length + 8 := by
    unfold toSizeT; omega
  simp only [serializaTreeNode, hn, hsz, h8,
    mallocOrExit_of_lt_two_pow (show t.name.bytes.length + 8 < 2^63 by omega),
    except_ok_bind, copy, toSizeT_natCast (show t.name.bytes.length < 2^64 by omega),
    show toSizeT 0 = 0 from rfl, show toSizeT 4 = 4 from rfl, show toSizeT 8 = 8 from rfl]
  simp [storeAt_of_length, nodeBytes, nodeLog, List.take_append_of_le_length, List.take_of_length_le]

theorem appendChild_spec {buf : Block} {tmp : Ret} (hlen : tmp.len = tmp.tmp.data.length)
    (hsmall : buf.data.length + tmp.tmp.data.length + 200 < 2^31) :
    ∃ buf' l, appendChild maxMsgLen buf buf.data.length tmp = .ok (buf', l) ∧
      buf'.data = buf.data ++ tmp.tmp.data ∧
      (200 ≤ buf.size → buf.data.length ≤ buf.size → tmp.tmp.data.length ≤ tmp.tmp.size →
        200 ≤ buf'.size ∧ buf'.data.length ≤ buf'.size ∧ ∀ a ∈ l, a.Fits) := by
  have hsum : toInt32 ((buf.data.length : Int) + tmp.tmp.data.length) =
      buf.data.length + tmp.tmp.data.length := toInt32_of_lt (by omega) (by omega)
  have hexact : toSizeT (toInt32 ((buf.data.length : Int) + tmp.tmp.data.length + 200)) =
      buf.data.length + tmp.tmp.data.length + 200 := by
    rw [toInt32_of_lt (by omega) (by omega)]; unfold toSizeT; omega
  have hp : toSizeT (buf.data.length : Int) = buf.data.length := toSizeT_natCast (by omega)
  have hk : toSizeT (tmp.tmp.data.length : Int) = tmp.tmp.data.length := toSizeT_natCast (by omega)
  simp only [appendChild, hlen, hsum, maxMsgLen]
  split_ifs with hgrow hexceed
  · rw [hexact, mallocOrExit_of_lt_two_pow (by omega)]
    refine ⟨_, _, rfl, ?_, ?_⟩ <;>
      simp [copy, hp, hk, show toSizeT 0 = 0 from rfl, storeAt_of_length, Access.Fits]
    omega
  · rw [show toSizeT (200 * 2) = 400 from rfl, mallocOrExit_of_lt_two_pow (by omega)]
    refine ⟨_, _, rfl, ?_, ?_⟩ <;>
      simp [copy, hp, hk, show toSizeT 0 = 0 from rfl, storeAt_of_length, Access.Fits]
    omega
  · refine ⟨_, _, rfl, ?_, ?_⟩ <;> simp [copy, hp, hk, storeAt_of_length, Access.Fits]
    omega

/-- Every node with children has a name of at most `MAXMSGLEN - 8` bytes. -/
def DirTreeNode.RootsFit (t : DirTreeNode) : Prop :=
  ∀ u ∈ t.preorder, u.numSubdirs ≠ 0 → 8 + u.name.bytes.length ≤ 200

instance (t : DirTreeNode) : Decidable t.RootsFit := inferInstanceAs (Decidable (∀ u ∈ _, _))

theorem DirTreeNode.rootsFit_mk {n : CString} {s : List DirTreeNode} :
    (mk n s).RootsFit ↔ (s.length ≠ 0 → 8 + n.bytes.length ≤ 200) ∧ ∀ t ∈ s, t.RootsFit :=
  forall_mem_preorder_mk

mutual
/-- What `serializeTree` returns and copies, for every tree whose encoding fits in an `int`. -/
theorem serializeTree_spec : ∀ t : DirTreeNode, t.enc.length + 200 < 2^31 →
    ∃ r log, serializeTree t = .ok (r, log) ∧ r.len = t.enc.length ∧ r.tmp.data = t.enc ∧
      (t.RootsFit → t.enc.length ≤ r.tmp.size ∧ ∀ a ∈ log, a.Fits) ∧
      (t.numSubdirs ≠ 0 → (⟨200, 0, t.name.bytes.length + 8⟩ : Access) ∈ log)
  | mk n s, h => by
    have hnode := le_enc_length (mk n s) (mk n s) (by simp)
    simp only [name_mk, numSubdirs_mk] at hnode
    have hroot := serializaTreeNode_eq (t := mk n s) (by simp; omega)
    by_cases hs : s.length = 0
    · obtain rfl := List.length_eq_zero.mp hs
      refine ⟨_, _, (show serializeTree (mk n []) = serializaTreeNode (mk n []) from rfl).trans hroot,
        by simp [enc, encList]; omega, by simp [enc, encList, nodeBytes],
        fun _ => ⟨by simp [enc, encList]; omega, nodeLog_fits _⟩, by simp⟩
    · have hlen : (nodeBytes (mk n s)).length = n.bytes.length + 8 := by simp [nodeBytes]; omega
      have henc : (mk n s).enc = nodeBytes (mk n s) ++ encList s := by simp [enc, nodeBytes]
      have hcopy : copy ⟨200, []⟩ 0 ⟨n.bytes.length + 8, nodeBytes (mk n s)⟩ (n.bytes.length + 8) =
          (⟨200, nodeBytes (mk n s)⟩, [⟨200, 0, n.bytes.length + 8⟩,
            ⟨n.bytes.length + 8, 0, n.bytes.length + 8⟩]) := by
        have : toSizeT ((n.bytes.length : Int) + 8) = n.bytes.length + 8 := by unfold toSizeT; omega
        simp [copy, this, show toSizeT 0 = 0 from rfl, storeAt, ← hlen]
      obtain ⟨buf', more, happ, hdata', hfit'⟩ := appendSubdirs_spec s ⟨200, nodeBytes (mk n s)⟩
        (nodeLog n.bytes.length ++ [⟨200, 0, n.bytes.length + 8⟩,
          ⟨n.bytes.length + 8, 0, n.bytes.length + 8⟩]) (by rw [henc] at h; simpa using h)
      refine ⟨⟨buf', (mk n s).enc.length⟩, nodeLog n.bytes.length ++ [⟨200, 0, n.bytes.length + 8⟩,
          ⟨n.bytes.length + 8, 0, n.bytes.length + 8⟩] ++ more, ?_, rfl, by rw [hdata', henc],
        fun hroots => ?_, fun _ => by simp⟩
      · simp only [serializeTree, hs, if_false, show toSizeT maxMsgLen = 200 from rfl,
          mallocOrExit_of_lt_two_pow (show 200 < 2^63 by omega), except_ok_bind, hroot, name_mk, hcopy]
        rw [show ((n.bytes.length : Int) + 8) = ((nodeBytes (mk n s)).length : Int) by simp [hlen],
          happ, henc]
        simp
      · obtain ⟨hfirst, hsub⟩ := rootsFit_mk.mp hroots
        obtain ⟨-, hroom, hmore⟩ := hfit' le_rfl (by simp; omega) hsub
        refine ⟨by rw [henc, ← hdata']; exact hroom, fun a ha => ?_⟩
        simp only [List.mem_append, List.mem_cons, List.not_mem_nil, or_false] at ha
        rcases ha with (ha | rfl | rfl) | ha
        · exact nodeLog_fits _ a ha
        · simp [Access.Fits]; omega
        · simp [Access.Fits]
        · exact hmore a ha
theorem appendSubdirs_spec : ∀ (ts : List DirTreeNode) (buf : Block) (log : List Access),
    buf.data.length + (encList ts).length + 200 < 2^31 →
    ∃ buf' more, appendSubdirs maxMsgLen ts (buf, buf.data.length, log) =
        .ok (buf', buf.data.length + (encList ts).length, log ++ more) ∧
      buf'.data = buf.data ++ encList ts ∧
      (200 ≤ buf.size → buf.data.length ≤ buf.size → (∀ c ∈ ts, c.RootsFit) →
        200 ≤ buf'.size ∧ buf'.data.length ≤ buf'.size ∧ ∀ a ∈ more, a.Fits)
  | [], buf, log, _ =>
    ⟨buf, [], by simp [appendSubdirs, encList], by simp [encList], fun h₁ h₂ _ => ⟨h₁, h₂, by simp⟩⟩
  | t :: ts, buf, log, h => by
    have hsplit : (encList (t :: ts)).length = t.enc.length + (encList ts).length := by
      simp [encList]
    obtain ⟨tmp, l₁, ht, htlen, htdata, htfit, -⟩ := serializeTree_spec t (by omega)
    obtain ⟨buf₁, l₂, hstep, hdata₁, hfit₁⟩ :=
      @appendChild_spec buf tmp (by rw [htlen, htdata]) (by rw [htdata]; omega)
    have hlen₁ : buf₁.data.length = buf.data.length + t.enc.length := by simp [hdata₁, htdata]
    have hoff : toInt32 ((buf.data.length : Int) + tmp.len) = (buf₁.data.length : Int) := by
      rw [htlen, hlen₁, toInt32_of_lt (by omega) (by omega)]; simp
    obtain ⟨buf', more, hrest, hdata', hfit'⟩ :=
      appendSubdirs_spec ts buf₁ (log ++ l₁ ++ l₂) (by omega)
    refine ⟨buf', l₁ ++ l₂ ++ more, ?_, by simp [hdata', hdata₁, htdata, encList], ?_⟩
    · simp only [appendSubdirs, ht, hstep, except_ok_bind, hoff]
      rw [hrest, hlen₁, hsplit]
      simp [Int.add_assoc]
    · intro h200 hroom hroots
      obtain ⟨htsize, hl₁⟩ := htfit (hroots t (List.mem_cons_self t ts))
      obtain ⟨h200₁, hroom₁, hl₂⟩ := hfit₁ h200 hroom (by rw [htdata]; exact htsize)
      obtain ⟨h200', hroom', hmore⟩ :=
        hfit' h200₁ hroom₁ fun c hc => hroots c (List.mem_cons_of_mem t hc)
      refine ⟨h200', hroom', fun a ha => ?_⟩
      rcases List.mem_append.mp ha with ha | ha
      · rcases List.mem_append.mp ha with ha | ha
        exacts [hl₁ a ha, hl₂ a ha]
      · exact hmore a ha
end

theorem serializeTree_leaf_len {n : CString} (h : n.bytes.length < 2^31) :
    ∃ r log, serializeTree (mk n []) = .ok (r, log) ∧ r.len = toInt32 (n.bytes.length + 8) := by
  have hsz : toSizeT ((n.bytes.length : Int) + 8) < 2^63 := by
    unfold toSizeT; omega
  simp only [serializeTree, List.length_nil, if_true, serializaTreeNode, name_mk,
    toInt32_of_lt (show -2^31 ≤ (n.bytes.length : Int) by omega)
      (show (n.bytes.length : Int) < 2^31 by omega), mallocOrExit_of_lt_two_pow hsz, except_ok_bind]
  refine ⟨_, _, except_pure _, ?_⟩
  simp only

theorem Ret.bytes_of_spec {r : Ret} {t : DirTreeNode} (hlen : r.len = t.enc.length)
    (hdata : r.tmp.data = t.enc) : r.bytes = t.enc := by
  simp [Ret.bytes, hlen, hdata]

def sampleTree : DirTreeNode :=
  mk ⟨[97], by decide⟩ [mk ⟨[99], by decide⟩ [mk ⟨[100], by decide⟩ []], mk ⟨[98], by decide⟩ []]

/-- `serializeTree` returns the preorder encoding and its length, whichever way it grows. -/
theorem serializeTree_eq_enc (t : DirTreeNode) (h : t.enc.length + 200 < 2^31) :
    ∃ r log, serializeTree t = .ok (r, log) ∧
      r.len = ((t.preorder.map fun u => 8 + u.name.bytes.length).sum : Nat) ∧ r.bytes = t.enc := by
  obtain ⟨r, log, he, hlen, hdata, -⟩ := serializeTree_spec t h
  exact ⟨r, log, he, by rw [hlen, enc_length], Ret.bytes_of_spec hlen hdata⟩

theorem serializeTree_eq_enc_sampleTree : sampleTree.enc.length + 200 < 2^31 ∧
    ∃ r log, serializeTree sampleTree = .ok (r, log) ∧
      r.len = ((sampleTree.preorder.map fun u => 8 + u.name.bytes.length).sum : Nat) ∧
      r.bytes = sampleTree.enc :=
  ⟨by decide, serializeTree_eq_enc sampleTree (by decide)⟩

/-- Tree round trip for trees whose non-leaf names fit the first buffer, every copy in bounds. -/
theorem serializeTree_readDirTree (t : DirTreeNode) (h : t.enc.length + 200 < 2^31)
    (hroots : t.RootsFit) (rest : Bytes) :
    ∃ r log, serializeTree t = .ok (r, log) ∧ (∀ a ∈ log, a.Fits) ∧
      readDirTree (r.bytes ++ rest) = some (t, rest) := by
  obtain ⟨r, log, he, hlen, hdata, hfit, -⟩ := serializeTree_spec t h
  refine ⟨r, log, he, (hfit hroots).2, ?_⟩
  rw [Ret.bytes_of_spec hlen hdata]
  exact readDirTree_enc (fits_of_enc_length_lt (by omega)) rest

theorem serializeTree_readDirTree_sampleTree : sampleTree.enc.length + 200 < 2^31 ∧
    sampleTree.RootsFit ∧ ∃ r log, serializeTree sampleTree = .ok (r, log) ∧ (∀ a ∈ log, a.Fits) ∧
      readDirTree (r.bytes ++ [7]) = some (sampleTree, [7]) :=
  ⟨by decide, by decide, serializeTree_readDirTree sampleTree (by decide) (by decide) [7]⟩

theorem nul_free_replicate (k : Nat) {b : UInt8} (h : b ≠ 0) : (0 : UInt8) ∉ List.replicate k b := by
  rw [List.mem_replicate]; exact fun ⟨_, e⟩ => h e.symm

def overlongLeaf (b : UInt8) (h : b ≠ 0) : DirTreeNode :=
  mk ⟨List.replicate (2^31 - 8) b, nul_free_replicate _ h⟩ []

theorem overlongLeaf_len (b : UInt8) (h : b ≠ 0) :
    ∃ r log, serializeTree (overlongLeaf b h) = .ok (r, log) ∧ r.len = -2^31 := by
  obtain ⟨r, log, he, hlen⟩ :=
    @serializeTree_leaf_len ⟨_, nul_free_replicate (2^31 - 8) h⟩ (by rw [List.length_replicate]; omega)
  refine ⟨r, log, he, ?_⟩
  rw [hlen, List.length_replicate]
  decide

theorem overlongLeaf_preorder (b : UInt8) (h : b ≠ 0) :
    (overlongLeaf b h).preorder = [overlongLeaf b h] := by
  simp only [overlongLeaf, preorder_mk, preorderList]

@[simp] theorem overlongLeaf_name_length (b : UInt8) (h : b ≠ 0) :
    (overlongLeaf b h).name.bytes.length = 2^31 - 8 := by
  simp only [overlongLeaf, name_mk, List.length_replicate]

theorem overlongLeaf_names_fit (b : UInt8) (h : b ≠ 0) :
    ∀ u ∈ (overlongLeaf b h).preorder, u.name.bytes.length < 2^31 := by
  intro u hu
  rw [overlongLeaf_preorder, List.mem_singleton] at hu
  subst hu
  rw [overlongLeaf_name_length]
  omega

/-- A leaf of `2^31 - 8` name bytes overflows `n + sizeof(int)*2` and reports length `-2^31`. -/
theorem serializeTree_len_wraps :
    (∀ u ∈ (overlongLeaf 97 (by decide)).preorder, u.name.bytes.length < 2^31) ∧
    ¬ ∃ r log, serializeTree (overlongLeaf 97 (by decide)) = .ok (r, log) ∧
      r.len = (((overlongLeaf 97 (by decide)).preorder.map fun u => 8 + u.name.bytes.length).sum : Nat) ∧
      r.bytes = (overlongLeaf 97 (by decide)).enc := by
  refine ⟨overlongLeaf_names_fit 97 (by decide), ?_⟩
  rintro ⟨r, log, he, hlen, -⟩
  obtain ⟨r', log', he', hlen'⟩ := overlongLeaf_len 97 (by decide)
  rw [he'] at he
  cases he
  rw [hlen', overlongLeaf_preorder, List.map_singleton, List.sum_cons, List.sum_nil,
    overlongLeaf_name_length] at hlen
  omega

/-- The encoding is self-delimiting and injective on trees whose encodings fit. -/
theorem serializeTree_bytes_injective {t₁ t₂ : DirTreeNode} {a₁ a₂ : Ret} {l₁ l₂ : List Access}
    (r₁ r₂ : Bytes) (h₁ : t₁.enc.length + 200 < 2^31) (h₂ : t₂.enc.length + 200 < 2^31)
    (e₁ : serializeTree t₁ = .ok (a₁, l₁)) (e₂ : serializeTree t₂ = .ok (a₂, l₂))
    (h : a₁.bytes ++ r₁ = a₂.bytes ++ r₂) : t₁ = t₂ ∧ r₁ = r₂ := by
  obtain ⟨a₁', l₁', e₁', hlen₁, hdata₁, -⟩ := serializeTree_spec t₁ h₁
  obtain ⟨a₂', l₂', e₂', hlen₂, hdata₂, -⟩ := serializeTree_spec t₂ h₂
  rw [e₁'] at e₁
  rw [e₂'] at e₂
  cases e₁
  cases e₂
  rw [Ret.bytes_of_spec hlen₁ hdata₁, Ret.bytes_of_spec hlen₂ hdata₂] at h
  exact enc_append_inj (fits_of_enc_length_lt (by omega)) (fits_of_enc_length_lt (by omega)) h

theorem serializeTree_bytes_injective_sampleTree : sampleTree.enc.length + 200 < 2^31 ∧
    ∃ a l, serializeTree sampleTree = .ok (a, l) ∧ a.bytes ++ [7] = a.bytes ++ [7] ∧
      sampleTree = sampleTree ∧ ([7] : Bytes) = [7] := by
  obtain ⟨a, l, e, -⟩ := serializeTree_spec sampleTree (by decide)
  exact ⟨by decide, a, l, e, rfl,
    serializeTree_bytes_injective [7] [7] (by decide) (by decide) e e rfl⟩

/-- Two different overlong leaves both report length `-2^31`, so both serialize to nothing. -/
theorem serializeTree_bytes_collide :
    (∀ u ∈ (overlongLeaf 97 (by decide)).preorder, u.name.bytes.length < 2^31) ∧
    (∀ u ∈ (overlongLeaf 98 (by decide)).preorder, u.name.bytes.length < 2^31) ∧
    ∃ a₁ l₁ a₂ l₂, serializeTree (overlongLeaf 97 (by decide)) = .ok (a₁, l₁) ∧
      serializeTree (overlongLeaf 98 (by decide)) = .ok (a₂, l₂) ∧
      a₁.bytes ++ [] = a₂.bytes ++ [] ∧ overlongLeaf 97 (by decide) ≠ overlongLeaf 98 (by decide) := by
  obtain ⟨a₁, l₁, e₁, hlen₁⟩ := overlongLeaf_len 97 (by decide)
  obtain ⟨a₂, l₂, e₂, hlen₂⟩ := overlongLeaf_len 98 (by decide)
  refine ⟨overlongLeaf_names_fit 97 (by decide), overlongLeaf_names_fit 98 (by decide),
    a₁, l₁, a₂, l₂, e₁, e₂, ?_, fun h => ?_⟩
  · simp only [Ret.bytes, hlen₁, hlen₂, show (-2^31 : Int).toNat = 0 by decide, List.take_zero]
  · have h97 : (97 : UInt8) ∈ (overlongLeaf 97 (by decide)).name.bytes := by
      simp only [overlongLeaf, name_mk, List.mem_replicate]; decide
    rw [h] at h97
    simp only [overlongLeaf, name_mk, List.mem_replicate] at h97
    exact absurd h97.2 (by decide)

/-- When every non-leaf name fits the first buffer, every copy lies inside its blocks. -/
theorem serializeTree_in_bounds (t : DirTreeNode) (h : t.enc.length + 200 < 2^31)
    (hroots : t.RootsFit) : ∃ r log, serializeTree t = .ok (r, log) ∧ ∀ a ∈ log, a.Fits := by
  obtain ⟨r, log, he, -, -, hfit, -⟩ := serializeTree_spec t h
  exact ⟨r, log, he, (hfit hroots).2⟩

theorem serializeTree_in_bounds_sampleTree : sampleTree.enc.length + 200 < 2^31 ∧
    sampleTree.RootsFit ∧ ∃ r log, serializeTree sampleTree = .ok (r, log) ∧ ∀ a ∈ log, a.Fits :=
  ⟨by decide, by decide, serializeTree_in_bounds sampleTree (by decide) (by decide)⟩

/-- A non-leaf name over `MAXMSGLEN - 8` bytes is copied past the `MAXMSGLEN`-byte buffer. -/
theorem serializeTree_writes_past_buffer {n : CString} {s : List DirTreeNode} (hs : s ≠ [])
    (hn : 192 < n.bytes.length) (h : (mk n s).enc.length + 200 < 2^31) :
    ∃ r log, serializeTree (mk n s) = .ok (r, log) ∧
      (⟨200, 0, n.bytes.length + 8⟩ : Access) ∈ log ∧ ¬ (⟨200, 0, n.bytes.length + 8⟩ : Access).Fits := by
  obtain ⟨r, log, he, -, -, -, hroot⟩ := serializeTree_spec (mk n s) h
  exact ⟨r, log, he, hroot (by simpa using hs), by simp [Access.Fits]; omega⟩

def oversizedRoot : DirTreeNode :=
  mk ⟨List.replicate 193 97, nul_free_replicate _ (by decide)⟩ [mk ⟨[98], by decide⟩ []]

theorem oversizedRoot_enc_length : oversizedRoot.enc.length = 210 := by
  simp only [oversizedRoot, enc, encList, List.length_append, int32Bytes_length,
    List.length_replicate, List.length_singleton, List.length_nil]

theorem oversizedRoot_name_length : oversizedRoot.name.bytes.length = 193 := by
  simp only [oversizedRoot, name_mk, List.length_replicate]

theorem serializeTree_writes_past_buffer_oversizedRoot :
    oversizedRoot.subdirs ≠ [] ∧ 192 < oversizedRoot.name.bytes.length ∧
      oversizedRoot.enc.length + 200 < 2^31 ∧
      ∃ r log, serializeTree oversizedRoot = .ok (r, log) ∧
        (⟨200, 0, oversizedRoot.name.bytes.length + 8⟩ : Access) ∈ log ∧
        ¬ (⟨200, 0, oversizedRoot.name.bytes.length + 8⟩ : Access).Fits := by
  have hn : 192 < oversizedRoot.name.bytes.length := by rw [oversizedRoot_name_length]; decide
  have he : oversizedRoot.enc.length + 200 < 2^31 := by rw [oversizedRoot_enc_length]; decide
  exact ⟨List.cons_ne_nil _ _, hn, he, serializeTree_writes_past_buffer (List.cons_ne_nil _ _) hn he⟩

/-- The root of 193 name bytes: 201 bytes are copied into the 200-byte buffer. -/
theorem serializeTree_root_copy_overflows :
    ∃ r log, serializeTree oversizedRoot = .ok (r, log) ∧ (⟨200, 0, 201⟩ : Access) ∈ log ∧
      ¬ (⟨200, 0, 201⟩ : Access).Fits := by
  obtain ⟨r, log, he, -, -, -, hroot⟩ :=
    serializeTree_spec oversizedRoot (by rw [oversizedRoot_enc_length]; decide)
  have hmem := hroot (by decide)
  rw [oversizedRoot_name_length] at hmem
  exact ⟨r, log, he, hmem, by decide⟩

end RemoteFileIO
