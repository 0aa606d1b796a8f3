import RedisServer.ServerState

/-!
# The replication id

A server draws the characters of its id one after another from the letters and digits.
No operation of a parser thread changes the id.
-/

namespace RedisServer.ReplicationIdentity
open ByteStrings ServerState

def replidLen : ℕ := 40

def characters : Bytes := str "ABCDEFGHIJKLMNOPQRSTUVWXYZabcdefghijklmnopqrstuvwxyz0123456789"

/-- `draws i` is the position that the distribution yields in round `i`. -/
def generateMasterReplid (draws : ℕ → Fin characters.length) : Bytes :=
  (List.range replidLen).foldl (fun randomString i => randomString ++ [characters.get (draws i)]) []

variable {draws : ℕ → Fin characters.length}

theorem generateMasterReplid_eq_map :
    generateMasterReplid draws = (List.range replidLen).map fun i => characters.get (draws i) := by
  have hloop : ∀ (is : List ℕ) (s : Bytes),
      is.foldl (fun randomString i => randomString ++ [characters.get (draws i)]) s =
        s ++ is.map fun i => characters.get (draws i) := by
    intro is
    induction is with
    | nil => simp
    | cons i is ih =>
      intro s
      rw [List.foldl_cons, ih, List.append_assoc]
      rfl
  rw [generateMasterReplid, hloop, List.nil_append]

theorem mem_characters {c : UInt8} (h : c ∈ generateMasterReplid draws) : c ∈ characters := by
  rw [generateMasterReplid_eq_map] at h
  obtain ⟨i, -, rfl⟩ := List.mem_map.mp h
  exact List.get_mem characters (draws i)

theorem cr_notMem_generateMasterReplid : (13 : UInt8) ∉ generateMasterReplid draws := fun h =>
  absurd (mem_characters h) (by decide)

theorem masterReplid_performOp (host : Host) (o : Op) (st : Store) :
    (performOp host o st).2.serverInfo.masterReplid = st.serverInfo.masterReplid := by
  cases o with
  | databaseAt key => simp only [performOp]; split <;> rfl
  | _ => rfl

end RedisServer.ReplicationIdentity
