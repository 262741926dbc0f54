import Mathlib.Data.List.Sort
import Mathlib.Data.Rat.Lemmas
import LlmMemory.Core
import LlmMemory.Lib.Rows

/-!
# The database

The tables of the server (`Db`), in the order of their rowids, and the queries
of the storage layer on them, one namespace for each of its modules. A write is
a function on databases; that it may fail, leaving the database as it is, is up
to its callers.

The full-text index is not part of the source: `Fts` gives which rows match an
expression and how `bm25` ranks them, given the rows indexed.
-/

namespace LlmMemory

/-! ## Rows -/

/-- The row of a user. -/
structure User where
  id : String
  provider : String
  subject : String
  email : Option String
  createdAt : Int
  deriving DecidableEq, Repr

/-- The row of a shared memory. -/
structure SharedMemory where
  id : String
  name : String
  createdAt : Int
  deriving DecidableEq, Repr

/-- A raw note, appended by a user or put into a shared memory. -/
structure Raw where
  id : String
  scope : Scope
  ownerId : String
  title : String
  content : String
  source : String
  tags : Option String
  createdBy : Option String
  createdAt : Int
  deriving DecidableEq, Repr

/-- The owner of a raw. -/
def Raw.key (r : Raw) : OwnerKey := ⟨r.scope, r.ownerId⟩

/-- The wiki page of a concept. Its `sourceRefs` are kept as the list of ids of
    which the column holds the JSON text: only the rebuild writes and reads it. -/
structure Wiki where
  scope : Scope
  ownerId : String
  concept : String
  content : String
  sourceRefs : List String
  lastRebuiltAt : Int
  deriving DecidableEq, Repr

/-- The owner of a wiki page. -/
def Wiki.key (w : Wiki) : OwnerKey := ⟨w.scope, w.ownerId⟩

/-- The schema of an owner. -/
structure Schema where
  scope : Scope
  ownerId : String
  content : String
  updatedAt : Int
  deriving DecidableEq, Repr

/-- The owner of a schema. -/
def Schema.key (s : Schema) : OwnerKey := ⟨s.scope, s.ownerId⟩

/-- The row of a refresh token. -/
structure Token where
  refreshTokenHash : List UInt8
  userId : String
  clientId : String
  expiresAt : Int
  revokedAt : Option Int
  deriving DecidableEq, Repr

/-- The tables. -/
structure Db where
  users : List User
  sharedMemories : List SharedMemory
  raws : List Raw
  wikis : List Wiki
  schemas : List Schema
  tokens : List Token
  deriving DecidableEq, Repr

/-! ## Raws -/

namespace Raws

/-- `INSERT INTO raws`. -/
def insert (db : Db) (r : Raw) : Db := { db with raws := db.raws ++ [r] }

/-- The raw of an id. -/
def get (db : Db) (id : String) : Option Raw := db.raws.find? fun r => r.id = id

/-- `ORDER BY created_at ASC, id ASC`. -/
def byCreation (r r' : Raw) : Prop :=
  r.createdAt < r'.createdAt ∨ (r.createdAt = r'.createdAt ∧ r.id ≤ r'.id)

instance : DecidableRel byCreation := fun _ _ => inferInstanceAs (Decidable (_ ∨ _))

/-- The raws of an owner created after `since`, up to and including `until`. -/
def listSince (db : Db) (key : OwnerKey) (since «until» : Int) : List Raw :=
  (db.raws.filter fun r => r.key = key ∧ since < r.createdAt ∧ r.createdAt ≤ «until»).insertionSort
    byCreation

/-- The raws listed are those of the owner in the interval. -/
theorem mem_listSince {db : Db} {key : OwnerKey} {since t : Int} {r : Raw} :
    r ∈ listSince db key since t ↔
      r ∈ db.raws ∧ r.key = key ∧ since < r.createdAt ∧ r.createdAt ≤ t := by
  simp [listSince, (List.perm_insertionSort _ _).mem_iff]

/-- A raw that is found is in the table, and has the id. -/
theorem mem_of_get {db : Db} {id : String} {r : Raw} (h : get db id = some r) :
    r ∈ db.raws ∧ r.id = id :=
  ⟨List.mem_of_find?_eq_some h, by simpa using List.find?_some h⟩

end Raws

/-! ## Wikis -/

namespace Wikis

/-- `PRIMARY KEY (scope, owner_id, concept)`. -/
def primaryKey (w : Wiki) : OwnerKey × String := (w.key, w.concept)

/-- The wiki pages of an owner. -/
def ofOwner (db : Db) (key : OwnerKey) : List Wiki := db.wikis.filter fun w => w.key = key

/-- A page is written over the one of the same owner and concept, if there is one. -/
def upsert (db : Db) (key : OwnerKey) (concept content : String) (sourceRefs : List String)
    (lastRebuiltAt : Int) : Db :=
  let row : Wiki := ⟨key.scope, key.ownerId, concept, content, sourceRefs, lastRebuiltAt⟩
  { db with wikis := Rows.upsert primaryKey row db.wikis }

/-- The page of a concept. -/
def get (db : Db) (key : OwnerKey) (concept : String) : Option Wiki :=
  db.wikis.find? fun w => w.key = key ∧ w.concept = concept

/-- The concepts of an owner, `ORDER BY concept`. -/
def listConcepts (db : Db) (key : OwnerKey) : List String :=
  ((ofOwner db key).map (·.concept)).insertionSort (· ≤ ·)

/-- The watermark of an owner: `MAX(last_rebuilt_at)` over its wiki pages, `0`
    if there are none. -/
def maxLastRebuiltAt (db : Db) (key : OwnerKey) : Int :=
  ((ofOwner db key).map (·.lastRebuiltAt)).max?.getD 0

/-- How many pages an owner has. -/
def countConcepts (db : Db) (key : OwnerKey) : Int := (ofOwner db key).length

/-- The wiki pages of an owner, `ORDER BY concept`. -/
def listForOwner (db : Db) (key : OwnerKey) : List Wiki :=
  (ofOwner db key).insertionSort fun w w' => w.concept ≤ w'.concept

/-- The pages of an owner are those in the table with the key. -/
theorem mem_ofOwner {db : Db} {key : OwnerKey} {w : Wiki} :
    w ∈ ofOwner db key ↔ w ∈ db.wikis ∧ w.key = key := by
  simp [ofOwner]

/-- The concepts listed are those of the pages. -/
theorem mem_listConcepts {db : Db} {key : OwnerKey} {c : String} :
    c ∈ listConcepts db key ↔ ∃ w ∈ ofOwner db key, w.concept = c := by
  simp [listConcepts, (List.perm_insertionSort _ _).mem_iff]

/-- A page that is found is one of the owner, and of the concept. -/
theorem mem_of_get {db : Db} {key : OwnerKey} {c : String} {w : Wiki} (h : get db key c = some w) :
    w ∈ ofOwner db key ∧ w.concept = c := by
  have := List.find?_some h
  simp only [decide_eq_true_eq] at this
  exact ⟨mem_ofOwner.2 ⟨List.mem_of_find?_eq_some h, this.1⟩, this.2⟩

theorem le_maxLastRebuiltAt {db : Db} {key : OwnerKey} {w : Wiki} (hw : w ∈ ofOwner db key) :
    w.lastRebuiltAt ≤ maxLastRebuiltAt db key := by
  have hmem := List.mem_map_of_mem (f := (·.lastRebuiltAt)) hw
  rw [maxLastRebuiltAt]
  cases hm : ((ofOwner db key).map (·.lastRebuiltAt)).max? with
  | none => simp [List.max?_eq_none_iff.1 hm] at hmem
  | some m => exact (List.max?_eq_some_iff.1 hm).2 _ hmem

/-- The watermark is the rebuild time of a page, if it is a bound of the others. -/
theorem maxLastRebuiltAt_eq {db : Db} {key : OwnerKey} {w : Wiki} (hw : w ∈ ofOwner db key)
    (h : ∀ w' ∈ ofOwner db key, w'.lastRebuiltAt ≤ w.lastRebuiltAt) :
    maxLastRebuiltAt db key = w.lastRebuiltAt := by
  refine le_antisymm ?_ (le_maxLastRebuiltAt hw)
  have hmem := List.mem_map_of_mem (f := (·.lastRebuiltAt)) hw
  rw [maxLastRebuiltAt]
  cases hm : ((ofOwner db key).map (·.lastRebuiltAt)).max? with
  | none => simp [List.max?_eq_none_iff.1 hm] at hmem
  | some m =>
    obtain ⟨w', hw', rfl⟩ := List.mem_map.1 (List.max?_mem hm)
    exact h w' hw'

/-- The pages of an owner after an upsert are the new one and pages it had. -/
theorem mem_ofOwner_upsert {db : Db} {key key' : OwnerKey} {c content : String}
    {refs : List String} {t : Int} {w : Wiki}
    (h : w ∈ ofOwner (upsert db key c content refs t) key') :
    (key' = key ∧ w = ⟨key.scope, key.ownerId, c, content, refs, t⟩) ∨ w ∈ ofOwner db key' := by
  obtain ⟨hw, hk⟩ := mem_ofOwner.1 h
  rcases Rows.mem_or_eq_of_mem_upsert hw with rfl | hw
  · exact .inl ⟨hk.symm, rfl⟩
  · exact .inr (mem_ofOwner.2 ⟨hw, hk⟩)

/-- The page written is in the table. -/
theorem upsert_mem_ofOwner {db : Db} {key : OwnerKey} {c content : String} {refs : List String}
    {t : Int} : ⟨key.scope, key.ownerId, c, content, refs, t⟩ ∈
      ofOwner (upsert db key c content refs t) key :=
  mem_ofOwner.2 ⟨Rows.mem_upsert_self, rfl⟩

/-- An upsert moves the watermark up to its rebuild time at most. -/
theorem maxLastRebuiltAt_upsert_le {db : Db} {key : OwnerKey} {c content : String}
    {refs : List String} {t : Int} :
    maxLastRebuiltAt (upsert db key c content refs t) key ≤ max (maxLastRebuiltAt db key) t := by
  have hrow : ⟨key.scope, key.ownerId, c, content, refs, t⟩ ∈
      ofOwner (upsert db key c content refs t) key := upsert_mem_ofOwner
  have hmem := List.mem_map_of_mem (f := (·.lastRebuiltAt)) hrow
  rw [maxLastRebuiltAt]
  cases hm : ((ofOwner (upsert db key c content refs t) key).map (·.lastRebuiltAt)).max? with
  | none => simp [List.max?_eq_none_iff.1 hm] at hmem
  | some m =>
    obtain ⟨w, hw, rfl⟩ := List.mem_map.1 (List.max?_mem hm)
    rcases mem_ofOwner_upsert hw with ⟨_, rfl⟩ | hw
    · exact le_max_right _ _
    · exact (le_maxLastRebuiltAt hw).trans (le_max_left _ _)

/-- The concepts of an owner after an upsert. -/
theorem concepts_upsert {db : Db} {key : OwnerKey} {c content : String} {refs : List String}
    {t : Int} : (ofOwner (upsert db key c content refs t) key).map (·.concept) =
      if c ∈ (ofOwner db key).map (·.concept) then (ofOwner db key).map (·.concept)
      else (ofOwner db key).map (·.concept) ++ [c] := by
  have hmap : ∀ l : List Wiki, l.map (·.concept) = (l.map primaryKey).map Prod.snd := fun l => by
    rw [List.map_map]
    rfl
  have hmem : (key, c) ∈ (ofOwner db key).map primaryKey ↔
      c ∈ (ofOwner db key).map (·.concept) := by
    simp only [List.mem_map, primaryKey, Prod.mk.injEq]
    exact ⟨fun ⟨w, hw, _, hc⟩ => ⟨w, hw, hc⟩, fun ⟨w, hw, hc⟩ => ⟨w, hw, (mem_ofOwner.1 hw).2, hc⟩⟩
  have hfilter : ofOwner (upsert db key c content refs t) key = Rows.upsert primaryKey
      ⟨key.scope, key.ownerId, c, content, refs, t⟩ (ofOwner db key) :=
    Rows.filter_upsert_self fun w hw => decide_eq_true (congrArg Prod.fst hw)
  have hkey : primaryKey ⟨key.scope, key.ownerId, c, content, refs, t⟩ = (key, c) := rfl
  rw [hfilter, hmap, Rows.map_key_upsert, hkey]
  by_cases hc : c ∈ (ofOwner db key).map (·.concept)
  · rw [if_pos (hmem.2 hc), if_pos hc, hmap]
  · rw [if_neg (mt hmem.1 hc), if_neg hc, List.map_append, ← hmap]
    rfl

/-- An upsert leaves the pages of other owners as they are. -/
theorem ofOwner_upsert_of_ne {db : Db} {key key' : OwnerKey} {c content : String}
    {refs : List String} {t : Int} (h : key' ≠ key) :
    ofOwner (upsert db key c content refs t) key' = ofOwner db key' := by
  refine Rows.filter_upsert fun w hw => ?_
  have : w.key = key := congrArg Prod.fst hw
  simp [this, Ne.symm h]

end Wikis

/-! ## Schemas -/

namespace Schemas

/-- A schema is written over the one of the same owner, if there is one. -/
def upsert (db : Db) (key : OwnerKey) (content : String) (now : Int) : Db :=
  let row : Schema := ⟨key.scope, key.ownerId, content, now⟩
  { db with schemas := Rows.upsert Schema.key row db.schemas }

/-- The schema of an owner. -/
def get (db : Db) (key : OwnerKey) : Option String :=
  (db.schemas.find? fun s => s.key = key).map (·.content)

end Schemas

/-! ## Shared memories -/

namespace SharedMemories

/-- The shared memories, `ORDER BY id`. -/
def listAll (db : Db) : List SharedMemory :=
  db.sharedMemories.insertionSort fun m m' => m.id ≤ m'.id

end SharedMemories

/-! ## Users -/

namespace Users

/-- The user of an id. -/
def findById (db : Db) (id : String) : Option User := db.users.find? fun u => u.id = id

/-- The transaction deleting a user with all that is personal to them. -/
def deleteCascade (db : Db) (userId : String) : Db where
  raws := db.raws.filter fun r => r.key ≠ .personal userId
  wikis := db.wikis.filter fun w => w.key ≠ .personal userId
  schemas := db.schemas.filter fun s => s.key ≠ .personal userId
  tokens := db.tokens.filter fun t => t.userId ≠ userId
  users := db.users.filter fun u => u.id ≠ userId
  sharedMemories := db.sharedMemories

end Users

/-! ## Full-text search -/

/-- The full-text index on `title`, `content` and `tags`: whether a row matches
    an expression, and the rank `bm25` gives it, which may depend on all the
    rows indexed (`raws_fts` indexes every raw of every owner). -/
structure Fts where
  isMatch : String → Raw → Bool
  bm25 : String → List Raw → Raw → ℚ

/-- An index where no row matches. -/
def Fts.nothing : Fts := ⟨fun _ _ => false, fun _ _ _ => 0⟩

namespace Search

/-- The characters with the property `White_Space`. -/
def isWhiteSpace (c : Char) : Bool :=
  let n := c.toNat
  (9 ≤ n && n ≤ 13) || n == 32 || n == 0x85 || n == 0xA0 || n == 0x1680 ||
    (0x2000 ≤ n && n ≤ 0x200A) || n == 0x2028 || n == 0x2029 || n == 0x202F || n == 0x205F ||
    n == 0x3000

/-- The maximal runs of characters other than white space; `tok` is the run
    being read, in reverse. -/
def splitWhitespace (tok : List Char) : List Char → List (List Char)
  | [] => if tok.isEmpty then [] else [tok.reverse]
  | c :: cs =>
    if isWhiteSpace c then
      if tok.isEmpty then splitWhitespace [] cs else tok.reverse :: splitWhitespace [] cs
    else splitWhitespace (c :: tok) cs

/-- A token as a phrase: its quotes doubled, in quotes. -/
def quoteToken (tok : List Char) : List Char :=
  '"' :: (tok.flatMap fun c => if c = '"' then ['"', '"'] else [c]) ++ ['"']

/-- The expression matching the rows with all the tokens of `s`, each taken
    literally, and no row if there are none. -/
def fts5Escape (s : String) : String :=
  match splitWhitespace [] s.toList with
  | [] => "\"\""
  | toks => String.ofList ([' '].intercalate (toks.map quoteToken))

/-- A search: what for, among whose rows, and how many to find. -/
structure SearchQuery where
  query : String
  scope : Option Scope
  ownerId : Option String
  limit : Int

/-- The limit kept within `1..=100`. -/
def clampLimit (limit : Int) : Int := max 1 (min limit 100)

/-- The rows a query selects, before ordering. -/
def candidates (fts : Fts) (db : Db) (q : SearchQuery) : List Raw :=
  db.raws.filter fun r => fts.isMatch (fts5Escape q.query) r ∧ (∀ s ∈ q.scope, r.scope = s) ∧
    ∀ o ∈ q.ownerId, r.ownerId = o

/-- The first rows of those selected, by increasing `bm25`; rows of the same
    rank come in the order of the table. -/
def raws (fts : Fts) (db : Db) (q : SearchQuery) : List Raw :=
  let rank := fts.bm25 (fts5Escape q.query) db.raws
  ((candidates fts db q).insertionSort fun r r' => rank r ≤ rank r').take (clampLimit q.limit).toNat

/-- A row that is found is a candidate. -/
theorem mem_of_mem_raws {fts : Fts} {db : Db} {q : SearchQuery} {r : Raw}
    (h : r ∈ raws fts db q) : r ∈ candidates fts db q :=
  (List.perm_insertionSort _ _).mem_iff.1 (List.mem_of_mem_take h)

example : fts5Escape "say \"hi\"  now" = "\"say\" \"\"\"hi\"\"\" \"now\"" := by decide

end Search

end LlmMemory
