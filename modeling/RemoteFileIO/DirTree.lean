import RemoteFileIO.Wire

/-! The directory tree `getdirtree` returns, and the preorder wire format of §4.2.9: each node's
`name_len`, `num_children` and name, then its children in turn. A reader driven only by the two
length fields recovers the tree and stops exactly at its end. -/
namespace RemoteFileIO

/-- `struct dirtreenode`: a name and its children; `num_subdirs` is the length of `subdirs`. -/
inductive DirTreeNode
  | mk (name : CString) (subdirs : List DirTreeNode)

namespace DirTreeNode

def name : DirTreeNode → CString
  | mk n _ => n

def subdirs : DirTreeNode → List DirTreeNode
  | mk _ s => s

/-- The `int num_subdirs` field. -/
def numSubdirs (t : DirTreeNode) : Nat := t.subdirs.length

@[simp] theorem name_mk (n : CString) (s : List DirTreeNode) : (mk n s).name = n := rfl
@[simp] theorem subdirs_mk (n : CString) (s : List DirTreeNode) : (mk n s).subdirs = s := rfl
@[simp] theorem numSubdirs_mk (n : CString) (s : List DirTreeNode) :
    (mk n s).numSubdirs = s.length := rfl

mutual
/-- The encoding of §4.2.9: `int32(|name|) ++ int32(num_subdirs) ++ name`, then each child's. -/
def enc : DirTreeNode → Bytes
  | mk name subdirs =>
    int32Bytes name.bytes.length ++ int32Bytes subdirs.length ++ name.bytes ++ encList subdirs
def encList : List DirTreeNode → Bytes
  | [] => []
  | t :: ts => enc t ++ encList ts
end

mutual
/-- The nodes of a tree in preorder. -/
def preorder : DirTreeNode → List DirTreeNode
  | mk name subdirs => mk name subdirs :: preorderList subdirs
def preorderList : List DirTreeNode → List DirTreeNode
  | [] => []
  | t :: ts => preorder t ++ preorderList ts
end

/-- One node's part of the encoding. -/
def nodeBytes (t : DirTreeNode) : Bytes :=
  int32Bytes t.name.bytes.length ++ int32Bytes t.numSubdirs ++ t.name.bytes

/-- Every length field of the tree fits the `int` it is stored in. -/
def Fits (t : DirTreeNode) : Prop :=
  ∀ u ∈ t.preorder, u.name.bytes.length < 2^31 ∧ u.numSubdirs < 2^31

instance (t : DirTreeNode) : Decidable t.Fits := inferInstanceAs (Decidable (∀ u ∈ _, _))

@[simp] theorem preorder_mk (n : CString) (s : List DirTreeNode) :
    (mk n s).preorder = mk n s :: preorderList s := by
  simp [preorder]

theorem mem_preorderList {u : DirTreeNode} {ts : List DirTreeNode} :
    u ∈ preorderList ts ↔ ∃ t ∈ ts, u ∈ t.preorder := by
  induction ts with
  | nil => simp [preorderList]
  | cons t ts ih => simp [preorderList, ih]

theorem forall_mem_preorder_mk {P : DirTreeNode → Prop} {n : CString} {s : List DirTreeNode} :
    (∀ u ∈ (mk n s).preorder, P u) ↔ P (mk n s) ∧ ∀ t ∈ s, ∀ u ∈ t.preorder, P u := by
  simp only [preorder_mk, List.mem_cons, forall_eq_or_imp, mem_preorderList]
  constructor
  · rintro ⟨h, hs⟩
    exact ⟨h, fun t ht u hu => hs u ⟨t, ht, hu⟩⟩
  · rintro ⟨h, hs⟩
    exact ⟨h, fun u ⟨t, ht, hu⟩ => hs t ht u hu⟩

theorem fits_mk {n : CString} {s : List DirTreeNode} :
    (mk n s).Fits ↔ (n.bytes.length < 2^31 ∧ s.length < 2^31) ∧ ∀ t ∈ s, t.Fits :=
  forall_mem_preorder_mk

mutual
theorem enc_eq_flatMap : ∀ t : DirTreeNode, t.enc = t.preorder.flatMap nodeBytes
  | mk n s => by
    simp [enc, nodeBytes, encList_eq_flatMap s, List.append_assoc]
theorem encList_eq_flatMap : ∀ ts : List DirTreeNode, encList ts = (preorderList ts).flatMap nodeBytes
  | [] => by simp [encList, preorderList]
  | t :: ts => by
    simp [encList, preorderList, enc_eq_flatMap t, encList_eq_flatMap ts]
end

theorem enc_length (t : DirTreeNode) :
    t.enc.length = (t.preorder.map fun u => 8 + u.name.bytes.length).sum := by
  rw [enc_eq_flatMap, List.flatMap_def, List.length_flatten, List.map_map]
  congr 1
  apply List.map_congr_left
  intro u _
  simp [nodeBytes]
  omega

theorem length_preorder_le_of_mem {u : DirTreeNode} {ts : List DirTreeNode} (h : u ∈ ts) :
    u.preorder.length ≤ (preorderList ts).length := by
  induction ts with
  | nil => simp at h
  | cons t ts ih =>
    simp only [preorderList, List.length_append]
    rcases List.mem_cons.mp h with rfl | h
    · omega
    · have := ih h; omega

theorem length_preorder_le_enc (t : DirTreeNode) : t.preorder.length ≤ t.enc.length := by
  rw [enc_length]
  induction t.preorder with
  | nil => simp
  | cons u us ih => simp only [List.length_cons, List.map_cons, List.sum_cons]; omega

theorem eight_mul_length_le_encList (ts : List DirTreeNode) : 8 * ts.length ≤ (encList ts).length := by
  induction ts with
  | nil => simp [encList]
  | cons t ts ih =>
    obtain ⟨n, s⟩ := t
    simp only [encList, enc, List.length_append, int32Bytes_length, List.length_cons]
    omega

mutual
theorem le_enc_length : ∀ t : DirTreeNode, ∀ u ∈ t.preorder,
    8 + u.name.bytes.length + 8 * u.numSubdirs ≤ t.enc.length
  | mk n s, u, hu => by
    have hs := eight_mul_length_le_encList s
    simp only [enc, List.length_append, int32Bytes_length]
    rcases List.mem_cons.mp ((preorder_mk n s) ▸ hu) with rfl | hu
    · simp only [name_mk, numSubdirs_mk]; omega
    · have := le_encList_length s u hu; omega
theorem le_encList_length : ∀ ts : List DirTreeNode, ∀ u ∈ preorderList ts,
    8 + u.name.bytes.length + 8 * u.numSubdirs ≤ (encList ts).length
  | [], u, hu => by simp [preorderList] at hu
  | t :: ts, u, hu => by
    simp only [preorderList, List.mem_append] at hu
    simp only [encList, List.length_append]
    rcases hu with hu | hu
    · have := le_enc_length t u hu; omega
    · have := le_encList_length ts u hu; omega
end

theorem fits_of_enc_length_lt {t : DirTreeNode} (h : t.enc.length < 2^31) : t.Fits :=
  fun u hu => by have := le_enc_length t u hu; constructor <;> omega

/-- An `int` field as the client reads it: four bytes, as `*(int*)p`. -/
def readInt32 (bs : Bytes) : Option (Int × Bytes) :=
  if 4 ≤ bs.length then some (toInt32 (leValue (bs.take 4)), bs.drop 4) else none

def readMany {α : Type} (read : Bytes → Option (α × Bytes)) : Nat → Bytes → Option (List α × Bytes)
  | 0, bs => some ([], bs)
  | k + 1, bs => do
    let (x, bs) ← read bs
    let (xs, bs) ← readMany read k bs
    pure (x :: xs, bs)

/-- The preorder reader: `name_len`, `num_children`, the name, each child; fuel bounds depth. -/
def readTree : Nat → Bytes → Option (DirTreeNode × Bytes)
  | 0, _ => none
  | fuel + 1, bs => do
    let (n, bs) ← readInt32 bs
    let (k, bs) ← readInt32 bs
    if 0 ≤ n ∧ n ≤ bs.length ∧ 0 ≤ k then
      if h : (0 : UInt8) ∉ bs.take n.toNat then
        let (subdirs, rest) ← readMany (readTree fuel) k.toNat (bs.drop n.toNat)
        pure (mk ⟨bs.take n.toNat, h⟩ subdirs, rest)
      else none
    else none

/-- The reader a client runs on a received tree, with its byte count as fuel. -/
def readDirTree (bs : Bytes) : Option (DirTreeNode × Bytes) := readTree bs.length bs

theorem readInt32_int32Bytes {x : Int} (h₁ : -2^31 ≤ x) (h₂ : x < 2^31) (rest : Bytes) :
    readInt32 (int32Bytes x ++ rest) = some (x, rest) := by
  simp [readInt32, List.take_left', List.drop_left', toInt32_of_lt h₁ h₂]

theorem readMany_encList {read : Bytes → Option (DirTreeNode × Bytes)} {ts : List DirTreeNode}
    (h : ∀ u ∈ ts, ∀ r, read (u.enc ++ r) = some (u, r)) (rest : Bytes) :
    readMany read ts.length (encList ts ++ rest) = some (ts, rest) := by
  induction ts with
  | nil => rfl
  | cons t ts ih =>
    have ht := h t (List.mem_cons_self t ts) (encList ts ++ rest)
    have hts := ih fun u hu => h u (List.mem_cons_of_mem t hu)
    simp [readMany, encList, List.append_assoc, ht, hts]

theorem readTree_enc (fuel : Nat) (t : DirTreeNode) (hfit : t.Fits)
    (hfuel : t.preorder.length ≤ fuel) (rest : Bytes) :
    readTree fuel (t.enc ++ rest) = some (t, rest) := by
  induction fuel generalizing t rest with
  | zero => cases t; simp at hfuel
  | succ fuel ih =>
    obtain ⟨n, s⟩ := t
    obtain ⟨⟨hn, hs⟩, hsub⟩ := fits_mk.mp hfit
    have hchildren : ∀ u ∈ s, ∀ r, readTree fuel (u.enc ++ r) = some (u, r) := fun u hu r =>
      ih u (hsub u hu) (by have := length_preorder_le_of_mem hu; simp at hfuel; omega) r
    have hname := @readInt32_int32Bytes n.bytes.length (by omega) (by omega)
    have hcount := @readInt32_int32Bytes s.length (by omega) (by omega)
    simp [enc, readTree, List.append_assoc, hname, hcount, n.nul_free, List.take_left',
      List.drop_left', readMany_encList hchildren, Int.ofNat_zero_le]

/-- Tree round trip: the reader recovers every tree whose lengths fit, and stops at its end. -/
theorem readDirTree_enc {t : DirTreeNode} (hfit : t.Fits) (rest : Bytes) :
    readDirTree (t.enc ++ rest) = some (t, rest) :=
  readTree_enc _ t hfit (by have := length_preorder_le_enc t; simp; omega) rest

/-- The encoding is self-delimiting and injective on trees whose lengths fit. -/
theorem enc_append_inj {t₁ t₂ : DirTreeNode} {r₁ r₂ : Bytes} (h₁ : t₁.Fits) (h₂ : t₂.Fits)
    (h : t₁.enc ++ r₁ = t₂.enc ++ r₂) : t₁ = t₂ ∧ r₁ = r₂ := by
  have e := (readDirTree_enc h₁ r₁).symm.trans (h ▸ readDirTree_enc h₂ r₂)
  simpa using e

end DirTreeNode
end RemoteFileIO
