import Mathlib.Data.Prod.Lex
import Mathlib.Data.String.Basic
import LlmMemory.Lib.Cursors
import LlmMemory.Server.Tools

/-!
# The export of all raws

A client exports its raws by calling `export` without a cursor, and then with the
cursor of each page, until a page has none (`Next`). In between, raws may be inserted
by anyone (`Step`).

A cursor is the text of the time and the id of a raw (`cursorOf`), from which they are
read back (`parseCursor_cursorOf`); a page is some of the raws after it
(`page_initial`), and at least one if there is another page. So the pages read the
raws of the user in the order of these (`Read`), which is to say all of them once.
-/

namespace LlmMemory.Export

open Relation

/-- The time and the id of a raw, by which the raws are ordered. -/
def place (r : Raw) : Int ×ₗ String := toLex (r.createdAt, r.id)

/-- A raw is after a cursor if it is later, or of the same time with a greater id. -/
theorem lt_place {c : Int × String} {r : Raw} :
    toLex c < place r ↔ c.1 < r.createdAt ∨ (r.createdAt = c.1 ∧ c.2 < r.id) := by
  rw [place, Prod.Lex.toLex_lt_toLex, eq_comm (a := c.1)]

/-- The order of the places is that of the query. -/
theorem place_le {r r' : Raw} : place r ≤ place r' ↔ Raws.byCreation r r' := by
  rw [place, place, Prod.Lex.toLex_le_toLex, Raws.byCreation]

/-- The raws of a user. -/
def mine (u : String) (db : Db) : List Raw := db.raws.filter fun r => r.key = .personal u

/-! ## Cursors -/

/-- The cursor of the page after a raw. -/
def cursorOf (r : Raw) : String := s!"{r.createdAt}:{r.id}"

/-- The time has 64 bits. -/
def IsI64 (t : Int) : Prop := -2 ^ 63 ≤ t ∧ t < 2 ^ 63

instance (t : Int) : Decidable (IsI64 t) := inferInstanceAs (Decidable (_ ∧ _))

theorem toList_toString (t : Int) : (toString t).toList =
    if 0 ≤ t then Nat.toDigits 10 t.toNat else '-' :: Nat.toDigits 10 (-t).toNat := by
  rw [Int.toString_eq_repr, Int.repr_eq_if]
  split
  · exact Nat.toList_repr
  · rw [String.toList_append, Nat.toList_repr]
    rfl

/-- The digits of a number are digits. -/
theorem isDigit_of_mem {c : Char} {n : ℕ} (h : c ∈ Nat.toDigits 10 n) : c.isDigit = true :=
  Nat.isDigit_of_mem_toDigits (by decide) (by decide) h

/-- The digits of a number are read back, with a sign before them. -/
theorem foldl_toDigits (n : ℕ) :
    (Nat.toDigits 10 n).foldl (fun n c => 10 * n + (c.toNat - '0'.toNat)) 0 = n := by
  rw [← Nat.ofDigitChars_eq_foldl, Nat.ofDigitChars_ten_toDigits]

/-- A number has digits, and nothing else. -/
theorem not_bad_digits (n : ℕ) :
    ¬ (Nat.toDigits 10 n = [] ∨ ¬ (Nat.toDigits 10 n).all (·.isDigit) = true) := by
  rw [not_or, not_not, List.all_eq_true]
  exact ⟨Nat.toDigits_ne_nil, fun c hc => isDigit_of_mem hc⟩

/-- A negative number is read back. -/
theorem parseI64_minus {n : ℕ} (h : IsI64 (-(n : Int))) :
    parseI64 ('-' :: Nat.toDigits 10 n) = some (-(n : Int)) := by
  have hn : (-1 : Int) * n = -n := neg_one_mul _
  simp only [parseI64, if_neg (not_bad_digits n), foldl_toDigits, hn]
  exact if_pos h

/-- A number without a sign is read back. -/
theorem parseI64_digits {n : ℕ} (h : IsI64 n) : parseI64 (Nat.toDigits 10 n) = some (n : Int) := by
  have hdigit : ∀ c cs, Nat.toDigits 10 n = c :: cs → c.isDigit = true := fun c cs he =>
    isDigit_of_mem (he ▸ List.mem_cons_self)
  unfold parseI64
  split
  next sign digits hmatch =>
    -- the first digit is not a sign
    split at hmatch
    · next ds he => exact absurd (hdigit _ _ he) (by decide)
    · next ds he => exact absurd (hdigit _ _ he) (by decide)
    · cases hmatch
      have hn : (1 : Int) * n = n := Int.one_mul _
      simp only [if_neg (not_bad_digits n), foldl_toDigits, hn]
      exact if_pos h

/-- A time is read back from its text. -/
theorem parseI64_toString {t : Int} (h : IsI64 t) : parseI64 (toString t).toList = some t := by
  rw [toList_toString]
  split
  · next hpos =>
    have ht : (t.toNat : Int) = t := Int.toNat_of_nonneg hpos
    rw [parseI64_digits (ht.symm ▸ h), ht]
  · next hneg =>
    have ht : (-((-t).toNat : Int)) = t := by omega
    rw [parseI64_minus (ht.symm ▸ h), ht]

/-- No colon is in the text of a time. -/
theorem ne_colon_of_mem {c : Char} {t : Int} (h : c ∈ (toString t).toList) : c ≠ ':' := by
  rintro rfl
  rw [toList_toString] at h
  split at h
  · exact absurd (isDigit_of_mem h) (by decide)
  · rcases List.mem_cons.1 h with h | h
    · exact absurd h (by decide)
    · exact absurd (isDigit_of_mem h) (by decide)

theorem toList_cursorOf (r : Raw) :
    (cursorOf r).toList = (toString r.createdAt).toList ++ ':' :: r.id.toList := by
  rw [cursorOf, String.toList_append, String.toList_append, List.append_assoc]
  rfl

/-- The time and the id of a raw are read back from its cursor. -/
theorem parseCursor_cursorOf {r : Raw} (h : IsI64 r.createdAt) :
    parseCursor (some (cursorOf r)) = .ok (r.createdAt, r.id) := by
  have hne : (cursorOf r).isEmpty = false := by
    rw [String.isEmpty_eq_false_iff, Ne, ← String.toList_eq_nil_iff, toList_cursorOf]
    exact List.append_ne_nil_of_right_ne_nil _ (List.cons_ne_nil _ _)
  have htake : (cursorOf r).toList.takeWhile (· ≠ ':') = (toString r.createdAt).toList := by
    rw [toList_cursorOf, List.takeWhile_append_of_pos fun c hc => by simpa using ne_colon_of_mem hc]
    simp
  have hdrop : (cursorOf r).toList.drop ((toString r.createdAt).toList.length + 1) =
      r.id.toList := by
    rw [toList_cursorOf, List.drop_append, Nat.add_sub_cancel_left,
      List.drop_of_length_le (Nat.le_succ _)]
    rfl
  rw [parseCursor, hne]
  simp only [htake, hdrop, parseI64_toString h, String.ofList_toList, Bool.false_eq_true, if_false]

/-! ## Pages -/

/-- The raws of the page after a cursor. -/
def page (db : Db) (u : String) (c : Int × String) : List Raw :=
  (fill ((fetch db u c).take PAGE_LIMIT) [] 0).1

/-- There is another page. -/
def more (db : Db) (u : String) (c : Int × String) : Bool :=
  (fill ((fetch db u c).take PAGE_LIMIT) [] 0).2 || PAGE_LIMIT < (fetch db u c).length

/-- The cursor after a page, if there is another one. -/
def nextCursor (db : Db) (u : String) (c : Int × String) : Option String :=
  if more db u c then (page db u c).getLast?.map cursorOf else none

section Pages

variable {db : Db} {u : String} {c : Int × String}

/-- The raws fetched are the first ones after the cursor. -/
theorem fetch_eq_take :
    fetch db u c = (Cursors.after place (toLex c) (mine u db)).take (PAGE_LIMIT + 1) := by
  have hfilter : (db.raws.filter fun r => r.key = .personal u ∧
      (c.1 < r.createdAt ∨ (r.createdAt = c.1 ∧ c.2 < r.id))) =
      (mine u db).filter fun r => toLex c < place r := by
    rw [mine, List.filter_filter]
    refine List.filter_congr fun r _ => ?_
    simp only [lt_place, Bool.decide_and, Bool.and_comm]
  rw [fetch, hfilter, Cursors.after]
  exact congrArg (List.take _) (Rows.insertionSort_congr fun _ _ _ _ => place_le.symm)

/-- The raws that fit are the first ones, and there is one if there are any. -/
theorem fill_cases (rs front : List Raw) (total : ℕ) :
    ∃ taken left, rs = taken ++ left ∧ (fill rs front total).1 = front ++ taken ∧
      ((fill rs front total).2 = true ↔ left ≠ []) ∧ (front = [] → rs ≠ [] → taken ≠ []) := by
  induction rs generalizing front total with
  | nil => exact ⟨[], [], rfl, (List.append_nil _).symm, by simp [fill], fun _ h => absurd rfl h⟩
  | cons r rs ih =>
    rw [fill]
    split
    · next hfull =>
      exact ⟨[], r :: rs, rfl, (List.append_nil _).symm, by simp, fun h => absurd h hfull.1⟩
    · obtain ⟨taken, left, hsplit, hpage, hleft, -⟩ :=
        ih (front ++ [r]) (total + r.content.utf8ByteSize)
      refine ⟨r :: taken, left, by rw [hsplit]; rfl, ?_, hleft, fun _ _ => List.cons_ne_nil _ _⟩
      rw [hpage, List.append_assoc]
      rfl

/-- The page is some of the raws after the cursor, the first ones. -/
theorem page_initial : page db u c <+: Cursors.after place (toLex c) (mine u db) := by
  obtain ⟨taken, left, hsplit, hpage, -, -⟩ := fill_cases ((fetch db u c).take PAGE_LIMIT) [] 0
  rw [page, hpage, List.nil_append]
  have hfetch : fetch db u c <+: Cursors.after place (toLex c) (mine u db) := by
    rw [fetch_eq_take]
    exact List.take_prefix _ _
  exact (List.prefix_append taken left).trans (hsplit ▸ (List.take_prefix _ _).trans hfetch)

/-- A page with another one after it is not empty. -/
theorem page_ne_nil (h : more db u c = true) : page db u c ≠ [] := by
  obtain ⟨taken, left, hsplit, hpage, hleft, htaken⟩ :=
    fill_cases ((fetch db u c).take PAGE_LIMIT) [] 0
  rw [page, hpage, List.nil_append]
  refine htaken rfl fun hnil => ?_
  rw [more, Bool.or_eq_true, decide_eq_true_eq] at h
  rcases h with h | h
  · rw [hnil] at hsplit
    exact hleft.1 h (List.append_eq_nil_iff.1 hsplit.symm).2
  · rcases List.take_eq_nil_iff.1 hnil with hzero | hfetch
    · exact absurd hzero (by decide)
    · rw [hfetch] at h
      exact absurd h (Nat.not_lt_zero _)

/-- A page without another one after it has all the raws that are left. -/
theorem page_of_not_more (h : more db u c = false) :
    page db u c = Cursors.after place (toLex c) (mine u db) := by
  obtain ⟨taken, left, hsplit, hpage, hleft, -⟩ := fill_cases ((fetch db u c).take PAGE_LIMIT) [] 0
  rw [more, Bool.or_eq_false_iff, decide_eq_false_iff_not, not_lt] at h
  have hnil : left = [] := by
    by_contra hne
    exact Bool.false_ne_true (h.1.symm.trans (hleft.2 hne))
  have hall : (Cursors.after place (toLex c) (mine u db)).length ≤ PAGE_LIMIT := by
    have hlen := h.2
    rw [fetch_eq_take, List.length_take] at hlen
    omega
  rw [page, hpage, List.nil_append, ← List.append_nil taken, ← hnil, ← hsplit,
    List.take_of_length_le h.2, fetch_eq_take, List.take_of_length_le (Nat.le_succ_of_le hall)]

/-- The next cursor is that of the last raw of the page, if there is another page. -/
theorem nextCursor_eq_some {s : String} (h : nextCursor db u c = some s) :
    ∃ r, (page db u c).getLast? = some r ∧ s = cursorOf r := by
  rw [nextCursor] at h
  split at h
  · obtain ⟨r, hr, he⟩ := Option.map_eq_some_iff.1 h
    exact ⟨r, hr, he.symm⟩
  · cases h

/-- Where there is no cursor, there is no other page. -/
theorem nextCursor_eq_none (h : nextCursor db u c = none) : more db u c = false := by
  rw [nextCursor] at h
  split at h
  · next hmore =>
    exact absurd (List.getLast?_eq_none_iff.1 (Option.map_eq_none_iff.1 h)) (page_ne_nil hmore)
  · next hmore => exact Bool.eq_false_iff.2 hmore

end Pages

/-! ## Responses -/

/-- Raws that look the same in an answer are the same. -/
theorem toJson_injective : Function.Injective Raw.toJson := by
  have hoption : ∀ {x y : Option String}, Json.option .str x = Json.option .str y → x = y := by
    intro x y h
    cases x <;> cases y <;> simp_all [Json.option]
  have hscope : ∀ {x y : Scope}, x.asStr = y.asStr → x = y := by
    intro x y h
    cases x <;> cases y <;> simp_all [Scope.asStr]
  intro r r' h
  simp only [Raw.toJson, Json.object] at h
  simp at h
  obtain ⟨hcontent, hat, hby, hid, howner, hs, hsource, htags, htitle⟩ := h
  cases r
  cases r'
  rw [Raw.mk.injEq]
  exact ⟨hid, hscope hs, howner, htitle, hcontent, hsource, hoption htags, hoption hby, hat⟩

/-- The value of a field of a response. -/
def fieldOf (name : String) : Json → Option Json
  | .obj fields => fields.lookup name
  | _ => none

/-- The response has a page and the cursor of the next one, if there is one. -/
structure Carries (v : Json) (page : List Raw) (next : Option String) : Prop where
  raws : fieldOf "raws" v = some (.arr (page.map Raw.toJson))
  cursor : fieldOf "next_cursor" v = some (.option .str next)

theorem Carries.unique {v : Json} {page page' : List Raw} {next next' : Option String}
    (h : Carries v page next) (h' : Carries v page' next') : page = page' ∧ next = next' := by
  have hraws := Option.some.inj (h.raws.symm.trans h'.raws)
  have hcursor := Option.some.inj (h.cursor.symm.trans h'.cursor)
  refine ⟨toJson_injective.list_map (Json.arr.inj hraws), ?_⟩
  cases next <;> cases next' <;> simp_all [Json.option]

section Client

variable {db : Db} {u : String} {now : Int} {args : Json} {c : Int × String}

variable (db u now args) in
/-- A call with a cursor responds with the page after it. -/
theorem call_carries {a : Option String} (ha : readCursor args = some a)
    (hc : parseCursor a = .ok c) :
    ∃ v, call db now u args = .ok v ∧ Carries v (page db u c) (nextCursor db u c) := by
  have hcall : ∃ v₁ v₂ v₃, call db now u args = .ok (.object [("version", .int 1),
      ("exported_at", .int now), ("user_id", v₁), ("raws", .arr ((page db u c).map Raw.toJson)),
      ("wikis", v₂), ("schema", v₃), ("next_cursor", .option .str (nextCursor db u c))]) := by
    have hnext : nextCursor db u c =
        if (fill ((fetch db u c).take PAGE_LIMIT) [] 0).2 ∨ PAGE_LIMIT < (fetch db u c).length then
          (page db u c).getLast?.map cursorOf
        else none := by
      rw [nextCursor, more]
      simp only [Bool.or_eq_true, decide_eq_true_eq]
    simp only [call, ha, readArgs, hc, bind, Except.bind, hnext]
    exact ⟨_, _, _, rfl⟩
  obtain ⟨v₁, v₂, v₃, hcall⟩ := hcall
  refine ⟨_, hcall, ?_, ?_⟩
  · simp [Json.object, fieldOf]
    rfl
  · simp [Json.object, fieldOf]
    rfl

end Client

/-! ## Reading all pages -/

/-- What a client sends next: no cursor at first, then the one it was given. -/
inductive Next
  | first
  | cursor (s : String)
  | done

namespace Next

/-- The arguments of the call for a page. -/
def args : Next → Option Json
  | first => some (.obj [])
  | cursor s => some (.obj [("cursor", .str s)])
  | done => none

/-- After a page with this cursor of the next one. -/
def after : Option String → Next
  | some s => cursor s
  | none => done

/-- Where the next page starts. -/
def start : Next → Option (Int × String)
  | first => some (0, "")
  | cursor s => (parseCursor (some s)).toOption
  | done => none

end Next

/-- A client exporting: the database, the raws delivered, and what it sends next. -/
structure Client where
  db : Db
  delivered : List Raw := []
  next : Next := .first

/-- A page that a client may get, and the cursor of the next one. -/
def Page (u : String) (s : Client) (page : List Raw) (next : Option String) : Prop :=
  ∃ now args v, s.next.args = some args ∧ call s.db now u args = .ok v ∧ Carries v page next

/-- Once it got a page. -/
def Client.deliver (s : Client) (page : List Raw) (next : Option String) : Client :=
  ⟨s.db, s.delivered ++ page, .after next⟩

/-- A raw is inserted, of any user, or the client gets a page. -/
inductive Step (u : String) (s : Client) : Client → Prop
  | insert (r : Raw) : Raws.get s.db r.id = none → IsI64 r.createdAt →
      Step u s { s with db := Raws.insert s.db r }
  | page (page : List Raw) (next : Option String) : Page u s page next →
      Step u s (s.deliver page next)

/-- The client gets that many pages, one after the other. -/
inductive Pages (u : String) : ℕ → Client → Client → Prop
  | none (s : Client) : Pages u 0 s s
  | next {n : ℕ} {s s' : Client} (page : List Raw) (next : Option String) : Page u s page next →
      Pages u n (s.deliver page next) s' → Pages u (n + 1) s s'

/-- The ids of the raws are distinct, and their times have 64 bits. -/
structure WellFormed (db : Db) : Prop where
  ids : (db.raws.map (·.id)).Nodup
  times : ∀ r ∈ db.raws, IsI64 r.createdAt

/-- The client read the raws of the user so far, in order, and has them all in the end. -/
structure Read (u : String) (db : Db) (s : Client) : Prop where
  wellFormed : WellFormed s.db
  started : s.next.start = none → s.next = .done
  reading : ∀ c, s.next.start = some c →
    Cursors.Reading place (toLex (0, "")) (mine u db) (mine u s.db) s.delivered (toLex c)
  sorted : s.delivered.Pairwise fun r r' => place r < place r'
  subset : s.delivered ⊆ mine u s.db
  complete : s.next = .done → ∀ r ∈ mine u db, toLex (0, "") < place r → r ∈ s.delivered

section Runs

variable {db : Db} {u : String} {s s' : Client} {page : List Raw} {next : Option String}

/-- The raws of a user are those in the table with the key. -/
theorem mem_mine {r : Raw} : r ∈ mine u db ↔ r ∈ db.raws ∧ r.key = .personal u := by
  rw [mine, List.mem_filter, decide_eq_true_eq]

/-- A raw of a new id is inserted. -/
theorem WellFormed.insert (h : WellFormed db) {r : Raw} (hr : Raws.get db r.id = none)
    (ht : IsI64 r.createdAt) : WellFormed (Raws.insert db r) := by
  constructor
  · have hnew : r.id ∉ db.raws.map (·.id) := by
      intro hmem
      obtain ⟨r', hr', he⟩ := List.mem_map.1 hmem
      exact List.find?_eq_none.1 hr r' hr' (decide_eq_true he)
    rw [Raws.insert, List.map_append, List.map_singleton, ← List.concat_eq_append]
    exact h.ids.concat hnew
  · intro r' hr'
    rcases List.mem_append.1 hr' with hr' | hr'
    · exact h.times r' hr'
    · rw [List.mem_singleton.1 hr']
      exact ht

/-- The raws of a user have distinct places. -/
theorem WellFormed.places (h : WellFormed db) : ((mine u db).map place).Nodup := by
  have hids : ((mine u db).map (·.id)).Nodup := h.ids.sublist (List.filter_sublist.map _)
  refine List.Nodup.of_map (fun c => (ofLex c).2) ?_
  rw [List.map_map]
  exact hids

/-- A page is the one after the place where it starts. -/
theorem Page.spec (h : Page u s page next) :
    ∃ c, s.next.start = some c ∧ page = Export.page s.db u c ∧ next = nextCursor s.db u c := by
  obtain ⟨now, args, v, hargs, hcall, hv⟩ := h
  have hspec : ∀ {a c}, readCursor args = some a → parseCursor a = .ok c →
      page = Export.page s.db u c ∧ next = nextCursor s.db u c := by
    intro a c ha hc
    obtain ⟨v', hcall', hv'⟩ := call_carries s.db u now _ ha hc
    cases hcall.symm.trans hcall'
    exact hv.unique hv'
  cases hn : s.next with
  | first =>
    rw [hn] at hargs
    cases hargs
    exact ⟨(0, ""), rfl, hspec (a := none) rfl rfl⟩
  | cursor t =>
    rw [hn] at hargs
    cases hargs
    have ha : readCursor (.obj [("cursor", .str t)]) = some (some t) := rfl
    cases hc : parseCursor (some t) with
    | ok c => exact ⟨c, by rw [Next.start, hc]; rfl, hspec ha hc⟩
    | error e =>
      simp only [call, ha, readArgs, hc, bind, Except.bind] at hcall
      cases hcall
  | done =>
    rw [hn] at hargs
    cases hargs

/-- A client that is not done gets the page after the place where it starts. -/
theorem page_of_start {c : Int × String} (h : s.next.start = some c) :
    Page u s (Export.page s.db u c) (nextCursor s.db u c) := by
  have hpage : ∀ {a} args, s.next.args = some args → readCursor args = some a →
      parseCursor a = .ok c → Page u s (Export.page s.db u c) (nextCursor s.db u c) := by
    intro a args hargs ha hc
    obtain ⟨v, hcall, hv⟩ := call_carries s.db u 0 _ ha hc
    exact ⟨0, args, v, hargs, hcall, hv⟩
  cases hn : s.next with
  | first =>
    rw [hn] at h
    cases h
    exact hpage (a := none) (.obj []) (by rw [hn]; rfl) rfl rfl
  | cursor t =>
    rw [hn, Next.start] at h
    have hc : parseCursor (some t) = .ok c := by
      cases hp : parseCursor (some t) with
      | ok c' =>
        rw [hp] at h
        exact congrArg _ (Option.some.inj h)
      | error e =>
        rw [hp] at h
        cases h
    exact hpage (a := some t) (.obj [("cursor", .str t)]) (by rw [hn]; rfl) rfl hc
  | done =>
    rw [hn] at h
    cases h

/-- The cursor of the next page is that of the last raw of the page. -/
theorem Page.cursor (h : Page u s page next) (hdb : WellFormed s.db) {t : String}
    (ht : next = some t) : ∃ r, page.getLast? = some r ∧ r ∈ mine u s.db ∧
      parseCursor (some t) = .ok (r.createdAt, r.id) := by
  obtain ⟨c, -, rfl, rfl⟩ := h.spec
  obtain ⟨r, hr, rfl⟩ := nextCursor_eq_some ht
  have hmem : r ∈ mine u s.db :=
    (Cursors.mem_after.1 (page_initial.subset (List.mem_of_getLast? hr))).1
  exact ⟨r, hr, hmem, parseCursor_cursorOf (hdb.times r (mem_mine.1 hmem).1)⟩

/-! ### Every run -/

/-- Before the first page, nothing was read. -/
theorem Read.begin (h : WellFormed db) : Read u db ⟨db, [], .first⟩ where
  wellFormed := h
  started hnone := by cases hnone
  reading c hc := by
    cases hc
    exact .begin
  sorted := .nil
  subset := List.nil_subset _
  complete hdone := by cases hdone

/-- A raw is inserted between two pages. -/
theorem Read.insert (h : Read u db s) {r : Raw} (hr : Raws.get s.db r.id = none)
    (ht : IsI64 r.createdAt) : Read u db { s with db := Raws.insert s.db r } := by
  have hmine : mine u (Raws.insert s.db r) = mine u s.db ∨
      mine u (Raws.insert s.db r) = mine u s.db ++ [r] := by
    rw [mine, Raws.insert, List.filter_append]
    by_cases hk : r.key = .personal u
    · exact .inr (by simp [hk, mine])
    · exact .inl (by simp [hk, mine])
  refine ⟨h.wellFormed.insert hr ht, h.started, fun c hc => ?_, h.sorted, ?_, h.complete⟩
  · rcases hmine with he | he
    · rw [he]
      exact h.reading c hc
    · rw [he]
      exact (h.reading c hc).insert r
  · rcases hmine with he | he
    · rw [he]
      exact h.subset
    · rw [he]
      exact List.Subset.trans h.subset (List.subset_append_left _ _)

theorem Read.deliver (h : Read u db s) (hp : Page u s page next) :
    Read u db (s.deliver page next) := by
  obtain ⟨c, hstart, hpage, hnext⟩ := hp.spec
  have hread := h.reading c hstart
  have hprefix : page <+: Cursors.after place (toLex c) (mine u s.db) := hpage ▸ page_initial
  have hplaces := h.wellFormed.places (u := u)
  have hsorted := hread.sorted_append hplaces hprefix
  have hsubset := hread.subset_append hprefix
  cases hn : next with
  | none =>
    refine ⟨h.wellFormed, fun _ => rfl, fun c' hc' => ?_, hsorted, hsubset, ?_⟩
    · cases hc'
    intro _ r hr hlt
    have hall := page_of_not_more (nextCursor_eq_none (hnext.symm.trans hn))
    rw [Client.deliver, hpage, hall]
    exact hread.complete hr hlt
  | some t =>
    obtain ⟨r, hlast, -, hparse⟩ := hp.cursor h.wellFormed hn
    have hstart' : (Next.after (some t)).start = some (r.createdAt, r.id) := by
      rw [Next.after, Next.start, hparse]
      rfl
    refine ⟨h.wellFormed, fun hnone => ?_, fun c' hc' => ?_, hsorted, hsubset, fun hdone => ?_⟩
    · cases hstart'.symm.trans hnone
    · cases hstart'.symm.trans hc'
      exact hread.next hplaces hprefix hlast
    · cases hdone

theorem Read.run (h : WellFormed db) (hs : ReflTransGen (Step u) ⟨db, [], .first⟩ s) :
    Read u db s := by
  induction hs with
  | refl => exact .begin h
  | tail _ hstep ih =>
    cases hstep with
    | insert r hr ht => exact ih.insert hr ht
    | page page next hp => exact ih.deliver hp

/-- Without insertions, the pages come to an end. -/
theorem Read.pages_le (h : Read u db s) {n : ℕ} (hs : Pages u n s s') :
    n ≤ s.db.raws.length + 1 := by
  -- each page after a cursor leaves fewer rows after the next one
  have hbound : ∀ {n s s'}, Pages u n s s' → Read u db s → ∀ c, s.next.start = some c →
      n ≤ (Cursors.after place (toLex c) (mine u s.db)).length + 1 := by
    intro n s s' hs
    induction hs with
    | none s => exact fun _ _ _ => Nat.zero_le _
    | @next n s s' page next hp hrest ih =>
      intro h c hc
      obtain ⟨c', hstart, hpage, hnext⟩ := hp.spec
      cases hc.symm.trans hstart
      cases hn : next with
      | none =>
        rw [hn] at hrest
        cases hrest with
        | none => exact Nat.le_add_left _ _
        | next page' next' hp' =>
          obtain ⟨_, hstart', -⟩ := hp'.spec
          cases hstart'
      | some t =>
        -- the cursor names the last row of the page, and is parsed as such
        obtain ⟨r, hlast, -, hparse⟩ := hp.cursor h.wellFormed hn
        have hlt := Cursors.length_after_lt h.wellFormed.places (hpage ▸ page_initial) hlast
        have hle := ih (h.deliver hp) (r.createdAt, r.id) (by
          rw [Client.deliver, hn, Next.after, Next.start, hparse]
          rfl)
        exact Nat.succ_le_succ (hle.trans hlt)
  cases hc : s.next.start with
  | some c =>
    refine (hbound hs h c hc).trans (Nat.succ_le_succ ?_)
    exact Cursors.length_after_le.trans (List.length_filter_le _ _)
  | none =>
    cases hs with
    | none => exact Nat.zero_le _
    | next page next hp =>
      obtain ⟨c, hstart, -⟩ := hp.spec
      cases hc.symm.trans hstart

end Runs

theorem empty_lt {s : String} (h : s ≠ "") : "" < s := by
  rw [String.lt_iff_toList_lt]
  cases hs : s.toList with
  | nil => exact absurd (String.toList_eq_nil_iff.1 hs) h
  | cons c cs => exact List.nil_lt_cons c cs

/-- A client that is exporting has got raws of the user, in the order of their times and
    ids, none twice; when it is done, all that there were when it began, but for one with
    the time 0 and no id. A page has no raw of another owner; if there is another one
    after it, it is not empty, and its cursor is read as the time and the id of its last
    raw. A client that is not done gets a page, and, without insertions, it is done
    after at most as many pages as there are raws, and one more. -/
theorem exported_once {u : String} {db : Db} {s : Client} (hdb : WellFormed db)
    (hs : ReflTransGen (Step u) ⟨db, [], .first⟩ s) :
    (s.delivered.Pairwise fun r r' => place r < place r') ∧
    (∀ r ∈ s.delivered, r ∈ s.db.raws ∧ r.key = .personal u) ∧
    (s.next = .done → ∀ r ∈ db.raws, r.key = .personal u → 0 ≤ r.createdAt →
      ¬ (r.createdAt = 0 ∧ r.id = "") → r ∈ s.delivered) ∧
    (∀ page next, Page u s page next →
      (∀ r ∈ page, r ∈ s.db.raws ∧ r.key = .personal u) ∧
      ∀ t, next = some t → ∃ r, page.getLast? = some r ∧
        parseCursor (some t) = .ok (r.createdAt, r.id)) ∧
    (s.next ≠ .done → ∃ page next, Page u s page next) ∧
    ∀ n s', Pages u n s s' → n ≤ s.db.raws.length + 1 := by
  have h := Read.run hdb hs
  refine ⟨h.sorted, fun r hr => mem_mine.1 (h.subset hr), fun hdone r hr hk hpos hne => ?_,
    fun page next hp => ⟨fun r hr => ?_, fun t ht => ?_⟩, fun hnext => ?_,
    fun n s' => h.pages_le⟩
  · refine h.complete hdone r (mem_mine.2 ⟨hr, hk⟩) (lt_place.2 ?_)
    rcases hpos.lt_or_eq with hlt | heq
    · exact .inl hlt
    · exact .inr ⟨heq.symm, empty_lt fun hid => hne ⟨heq.symm, hid⟩⟩
  · obtain ⟨c, -, rfl, -⟩ := hp.spec
    exact mem_mine.1 (Cursors.mem_after.1 (page_initial.subset hr)).1
  · obtain ⟨r, hlast, -, hparse⟩ := hp.cursor h.wellFormed ht
    exact ⟨r, hlast, hparse⟩
  · cases hc : s.next.start with
    | some c => exact ⟨_, _, page_of_start hc⟩
    | none => exact absurd (h.started hc) hnext

/-- A note of the user `u`, of the time `t`. -/
def note (id : String) (t : Int) : Raw :=
  ⟨id, .personal, "u", "title", "content", "manual", none, some "u", t⟩

/-- A database of raws only. -/
def notes (raws : List Raw) : Db := ⟨[], [], raws, [], [], []⟩

/-- One note more than a page has. -/
def manyNotes : Db := notes ((List.range 101).map fun i => note (toString i) (i + 1))

/-- A later note. -/
def lateNote : Raw := note "late" 200

/-- A client that got the first page, before the later note is inserted. -/
def firstPage : Client := (Client.mk manyNotes [] .first).deliver (page manyNotes "u" (0, ""))
  (nextCursor manyNotes "u" (0, ""))

/-- The second of two pages has the note that was left, and one inserted meanwhile. -/
theorem exported_once_two : ∃ s, ReflTransGen (Step "u") ⟨manyNotes, [], .first⟩ s ∧
    s.next = .done ∧ s.delivered.length = 102 ∧ lateNote ∈ s.delivered ∧
    (s.delivered.Pairwise fun r r' => place r < place r') ∧
    ∀ r ∈ manyNotes.raws, r ∈ s.delivered := by
  have hfirst : nextCursor manyNotes "u" (0, "") = some "100:99" := by decide +kernel
  have hstart : firstPage.next.start = some (100, "99") := by
    rw [show firstPage.next = .after (nextCursor manyNotes "u" (0, "")) from rfl, hfirst]
    decide +kernel
  have hlast : nextCursor (Raws.insert manyNotes lateNote) "u" (100, "99") = none := by
    decide +kernel
  have hfresh : Raws.get manyNotes lateNote.id = none := by decide +kernel
  have hrun : ReflTransGen (Step "u") ⟨manyNotes, [], .first⟩
      (Client.deliver { firstPage with db := Raws.insert firstPage.db lateNote }
        (page (Raws.insert manyNotes lateNote) "u" (100, "99"))
        (nextCursor (Raws.insert manyNotes lateNote) "u" (100, "99"))) :=
    ((ReflTransGen.single (.page _ _ (page_of_start rfl))).tail
      (.insert lateNote hfresh (by decide))).tail (.page _ _ (page_of_start hstart))
  have hdb : WellFormed manyNotes := ⟨by decide +kernel, by decide +kernel⟩
  obtain ⟨hsorted, -, hall, -⟩ := exported_once hdb hrun
  have hdone : Next.after (nextCursor (Raws.insert manyNotes lateNote) "u" (100, "99")) =
      .done := by
    rw [hlast]
    rfl
  refine ⟨_, hrun, hdone, by decide +kernel, by decide +kernel, hsorted, fun r hr => ?_⟩
  have hkept : ∀ r ∈ manyNotes.raws, r.key = .personal "u" ∧ 0 < r.createdAt := by
    decide +kernel
  obtain ⟨hkey, hpos⟩ := hkept r hr
  exact hall hdone r hr hkey hpos.le fun h => hpos.ne' h.1

/-- A raw with the time 0 and no id is not after the start of the first page. -/
theorem no_id_not_exported : ¬ ∀ (u : String) (db : Db) (s : Client), WellFormed db →
    ReflTransGen (Step u) ⟨db, [], .first⟩ s → s.next = .done →
    ∀ r ∈ db.raws, r.key = .personal u → 0 ≤ r.createdAt → r ∈ s.delivered := by
  intro hall
  have hdone : Next.after (nextCursor (notes [note "" 0]) "u" (0, "")) = .done := by
    rw [show nextCursor (notes [note "" 0]) "u" (0, "") = none by decide]
    rfl
  have hmem := hall "u" (notes [note "" 0]) _ ⟨by decide, by decide⟩
    (.single (.page _ _ (page_of_start rfl))) hdone (note "" 0) List.mem_cons_self rfl le_rfl
  exact absurd hmem (by decide)

end LlmMemory.Export
