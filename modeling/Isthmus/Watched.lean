import Isthmus.Proxy
import Isthmus.Reported
import Isthmus.Spoken

/-!
# Watched keys

A client that watches keys of the data storage is told of every write to them, together
with the value before. So it knows what is stored under them as long as its session lasts,
whatever else it, its player and the MW server do. It is told of a write even where SQLite
fails to store the value, so this only holds while the keys that it watches are stored.

## Main definitions

- `heard`: what a message says of keys
- `Savefile.valuesOf`: what is stored under them
- `Delivery`: a message, and whether its value is stored

## Main results

- `watcher_knows`: in every session
-/

namespace Isthmus

open Process Approto

/-- The value that a `Retrieved` message has under one of the keys. -/
def found? (K : List GoString) (p : GoString × StoredValue) : Option (GoString × Option GoString) :=
  if K.contains p.1 then
    match p.2 with
    | .readOnly _ => none
    | .stored value => some (p.1, some value)
    | .null => some (p.1, none)
  else none

/-- What a client is told of the keys. -/
def heard (K : List GoString) : ServerMessage → List (Access GoString GoString)
  | .setReply key value originalValue _ =>
    if K.contains key then [.found key originalValue, .reported key value] else []
  | .retrieved keys _ => (keys.filterMap (found? K)).map fun p => .found p.1 p.2
  | _ => []

def heardIn (K : List GoString) (t : Trace) : List (Access GoString GoString) :=
  (messagesOf Io.toAP? t).flatMap (heard K)

/-- What is stored under the keys. -/
def Savefile.valuesOf (K : List GoString) (db : Savefile) (k : GoString) : Option GoString :=
  if K.contains k then (db.dataStorage.find k).map StoredRow.jsonValue else none

/-- What the client hears is right, and it hears of all that changes. -/
def Coherent (K : List GoString) (db : Savefile) (t : Trace) : Prop :=
  Access.Consistent (db.valuesOf K) (heardIn K t) ∧
    (replay db t).valuesOf K = Access.replay (db.valuesOf K) (heardIn K t)

section Traces

variable {K : List GoString} {db : Savefile} {t u : Trace}

theorem heardIn_append : heardIn K (t ++ u) = heardIn K t ++ heardIn K u := by
  rw [heardIn, messagesOf_append, List.flatMap_append]
  rfl

theorem Coherent.append (ht : Coherent K db t) (hu : Coherent K (replay db t) u) :
    Coherent K db (t ++ u) := by
  rw [Coherent, ht.2] at hu
  rw [Coherent, heardIn_append, replay_append]
  exact ⟨Access.consistent_append.mpr ⟨ht.1, hu.1⟩, hu.2.trans Access.replay_append.symm⟩

theorem coherent_nil : Coherent K db [] := ⟨trivial, rfl⟩

/-- The effect changes and tells nothing of the keys. -/
def Aloof (K : List GoString) : Effect Commit Io → Prop
  | .commit (.setStoredData key _) => ∀ k ∈ K, key ≠ some k
  | .io (.toAP m) => heard K m = []
  | _ => True

theorem aloof_of_not_storage {e : Effect Commit Io} (h : isOfStorage e = false) : Aloof K e := by
  cases e with
  | commit c =>
    cases c with
    | setStoredData key value => cases h
    | _ => trivial
  | io m =>
    cases m with
    | toAP m =>
      cases m with
      | setReply key value orig slot => cases h
      | retrieved keys rest => cases h
      | _ => rfl
    | _ => trivial

theorem dataStorage_apply {db' : Savefile} {c : Commit} (h : Store.apply db c = .ok db')
    (hc : c.target ≠ .stored) : db'.dataStorage = db.dataStorage := by
  cases c with
  | clearLocations ids => obtain ⟨t, -, rfl⟩ := apply_clearLocations_ok h; rfl
  | addSentItems rows => cases h; rfl
  | addUnconfirmedItems rows => obtain ⟨t, -, -, rfl⟩ := apply_addUnconfirmedItems_ok h; rfl
  | confirmItem label content toPlayer => cases h; rfl
  | addReceivedItem label content =>
    obtain ⟨t, l, c, -, -, -, rfl⟩ := apply_addReceivedItem_ok h; rfl
  | setStoredData key jsonValue => exact absurd rfl hc

theorem valuesOf_upsert (key value : GoString) :
    Savefile.valuesOf K { db with dataStorage := db.dataStorage.upsert ⟨key, value⟩ } =
      if K.contains key then Function.update (db.valuesOf K) key (some value)
      else db.valuesOf K := by
  funext k
  by_cases hk : k = key
  · subst hk
    have hfind := Table.find_upsert db.dataStorage ⟨k, value⟩
    by_cases hK : K.contains k = true
    · simp only [Savefile.valuesOf, if_pos hK, hfind, Function.update_self, Option.map_some]
    · simp only [Savefile.valuesOf, if_neg hK]
  · have hfind : (db.dataStorage.upsert ⟨key, value⟩).find k = db.dataStorage.find k :=
      Table.find_upsert_of_ne (Ne.symm hk)
    split
    · rw [Function.update_of_ne hk, Savefile.valuesOf, Savefile.valuesOf, hfind]
    · rw [Savefile.valuesOf, Savefile.valuesOf, hfind]

theorem valuesOf_write {c : Commit} (hc : Aloof K (.commit c)) :
    (write db c).valuesOf K = db.valuesOf K := by
  rcases write_cases db c with hok | hok
  · by_cases htarget : c.target = .stored
    · cases c with
      | setStoredData key value =>
        simp only [Store.apply, Savefile.apply] at hok
        split at hok
        · next key value =>
          rw [← Except.ok.inj hok, valuesOf_upsert,
            if_neg fun hkey => hc key (List.contains_iff_mem.mp hkey) rfl]
        · cases hok
      | _ => cases htarget
    · funext k
      rw [Savefile.valuesOf, Savefile.valuesOf, dataStorage_apply hok htarget]
  · rw [hok]

theorem coherent_of_aloof (h : ∀ e ∈ t, Aloof K e) : Coherent K db t := by
  induction t generalizing db with
  | nil => exact coherent_nil
  | cons e t ih =>
    have htail := fun db => @ih db fun e' he => h e' (List.mem_cons_of_mem e he)
    have he := h e List.mem_cons_self
    refine Coherent.append (t := [e]) ?_ (htail _)
    cases e with
    | commit c => exact ⟨trivial, valuesOf_write he⟩
    | io m =>
      have hnone : heardIn K [.io m] = [] := by
        cases m with
        | toAP m => exact (List.append_nil _).trans he
        | _ => rfl
      rw [Coherent, hnone]
      exact ⟨trivial, rfl⟩

end Traces

section Handlers

variable {cfg : Config} {env : Env} {sess : Session} {K : List GoString} {db : Savefile}

theorem getStoredData_eq_valuesOf {k : GoString} (hk : k ∈ K) (hne : k ≠ []) :
    db.getStoredData env k = db.valuesOf K k := by
  rw [Savefile.getStoredData, Env.bindString_of_not fun h => hne h.2, Savefile.valuesOf,
    if_pos (List.contains_iff_mem.mpr hk)]
  rfl

open Proc.Triple in
theorem aloof_handleSet {m : SetMessage} (hkey : m.key ∉ K) :
    (handleSet cfg env sess m).Triple (.only (Aloof K)) fun _ => True := by
  refine ite (pure trivial) (bind read fun orig _ => ?_)
  cases cfg.evaluate orig m with
  | error e =>
    cases e with
    | panic => exact fail _
    | _ => exact pure trivial
  | ok newBytes =>
    refine bind (attempt (commit fun k hk hbind => ?_)) fun _ _ => ite (emit ?_) (pure trivial)
    · obtain ⟨-, rfl⟩ := Env.bindString_eq_some_iff.mp hbind
      exact hkey hk
    · exact if_neg fun hin => hkey (List.contains_iff_mem.mp hin)

/-- A watched key is written before the client is told. -/
theorem coherent_set {m : SetMessage} (hkey : m.key ∈ K) (hwatched : m.key ∈ sess.watchedKeys)
    (hne : m.key ≠ []) (hbytes : ∀ orig b, cfg.evaluate orig m = .ok b → b ≠ []) :
    Coherent K db ((handleSet cfg env sess m).run db).trace := by
  rw [handleSet]
  split
  · exact coherent_nil
  rw [Proc.run_read_bind]
  cases heval : cfg.evaluate (db.getStoredData env m.key) m with
  | error e =>
    cases e with
    | panic => exact coherent_nil
    | _ => exact coherent_nil
  | ok newBytes =>
    have happly : Store.apply db
        (.setStoredData (env.bindString m.key) (env.bindString newBytes)) =
          .ok { db with dataStorage := db.dataStorage.upsert ⟨m.key, newBytes⟩ } := by
      rw [Env.bindString_of_not fun h => hne h.2,
        Env.bindString_of_not fun h => hbytes _ _ heval h.2]
      rfl
    have hset : (setStoredData env m.key newBytes : Handler Unit).attempt.run db =
        ⟨.ok (.ok ()), [.commit (.setStoredData (env.bindString m.key)
          (env.bindString newBytes))]⟩ := by
      rw [setStoredData, Proc.run_attempt, Proc.run_commit_ok happly]
    simp only [if_pos (Or.inr hwatched : m.wantReply = true ∨ m.key ∈ sess.watchedKeys)]
    rw [Proc.run_bind_of_ok hset, Proc.run_emit]
    have hin : K.contains m.key = true := List.contains_iff_mem.mpr hkey
    have hheard : heardIn K ([.commit (.setStoredData (env.bindString m.key)
        (env.bindString newBytes))] ++ [.io (.toAP (.setReply m.key newBytes
          (db.getStoredData env m.key) sess.playerID))]) =
        [.found m.key (db.valuesOf K m.key), .reported m.key newBytes] := by
      rw [heardIn_append, getStoredData_eq_valuesOf hkey hne]
      exact (List.append_nil _).trans (if_pos hin)
    have hwrite : Savefile.valuesOf K
        { db with dataStorage := db.dataStorage.upsert ⟨m.key, newBytes⟩ } =
          Function.update (db.valuesOf K) m.key (some newBytes) := by
      rw [valuesOf_upsert, if_pos hin]
    rw [Coherent, hheard]
    refine ⟨⟨?_, ?_, trivial⟩, ?_⟩
    · rintro k v ⟨rfl, rfl⟩
      rfl
    · simp
    · rw [replay_append, replay_commit happly]
      exact hwrite

theorem coherent_get {m : GetMessage} (hK : ∀ k ∈ K, k ≠ []) :
    Coherent K db ((handleGet env m).run db).trace := by
  rw [handleGet, Proc.run_read_bind, Proc.run_emit]
  have hvalues : ∀ p ∈ (m.keys.dedup.map fun k => (k, db.storedValue env k)).filterMap (found? K),
      db.valuesOf K p.1 = p.2 := by
    intro p hp
    obtain ⟨q, hq, hfound⟩ := List.mem_filterMap.mp hp
    obtain ⟨k, -, rfl⟩ := List.mem_map.mp hq
    simp only [found?] at hfound
    split at hfound
    · next hin =>
      have hk : k ∈ K := List.contains_iff_mem.mp hin
      rw [Savefile.storedValue, getStoredData_eq_valuesOf hk (hK k hk)] at hfound
      split at hfound
      · cases hfound
      · next value hvalue =>
        cases hfound
        split at hvalue
        · cases hvalue
        · split at hvalue
          · next val hval =>
            cases hvalue
            exact hval
          · cases hvalue
      · next hvalue =>
        cases hfound
        split at hvalue
        · cases hvalue
        · split at hvalue
          · cases hvalue
          · next hval => exact hval
    · cases hfound
  obtain ⟨hcons, hsame⟩ := Access.consistent_found hvalues
  have hheard : heardIn K [.io (.toAP (.retrieved
      (m.keys.dedup.map fun k => (k, db.storedValue env k)) m.rest))] =
      ((m.keys.dedup.map fun k => (k, db.storedValue env k)).filterMap (found? K)).map
        fun p => .found p.1 p.2 := List.append_nil _
  rw [Coherent, hheard]
  exact ⟨hcons, hsame.symm⟩

theorem coherent_handle {rt : Interpreter} (hcfg : cfg.evaluate = rt.evaluate)
    (hK : ∀ k ∈ K, k ∈ sess.watchedKeys ∧ k ≠ []) (m : Incoming) :
    Coherent K db ((handle cfg env sess m).run db).trace := by
  have hrecv : ∀ m : Incoming, Coherent K db [.io (.recv m)] := fun m =>
    coherent_of_aloof (by simp [Aloof])
  by_cases hm : m.isApart = true
  · exact coherent_of_aloof fun e he => aloof_of_not_storage (apart_handle cfg env sess hm db e he)
  cases m with
  | fromMW m => exact absurd rfl hm
  | fromAP m =>
    rw [run_handle_fromAP]
    cases m with
    | set m =>
      refine Coherent.append (t := [.io (.recv (.fromAP (.set m)))]) (hrecv _) ?_
      rw [handleAP, Proc.run_bind_pure]
      by_cases hkey : m.key ∈ K
      · obtain ⟨hwatched, hne⟩ := hK _ hkey
        exact coherent_set hkey hwatched hne fun orig b hb => evaluate_ne_nil (hcfg ▸ hb)
      · exact coherent_of_aloof (aloof_handleSet hkey db trivial).1
    | get m =>
      refine Coherent.append (t := [.io (.recv (.fromAP (.get m)))]) (hrecv _) ?_
      rw [handleAP, Proc.run_bind_pure]
      exact coherent_get fun k hk => (hK k hk).2
    | _ => exact absurd rfl hm

end Handlers

/-! ## Sessions -/

/-- A message that is handled. SQLite can fail to store the value of a `Set`, which is a
call for one row; its error is dropped, and the handler goes on. -/
structure Delivery where
  env : Env
  message : Incoming
  fails : Bool

def isStored : Effect Commit Io → Bool
  | .commit (.setStoredData _ _) => false
  | _ => true

/-- The step of a message whose value is lost. -/
def unstored (cfg : Config) (s : System) (env : Env) (m : Incoming) : System :=
  match s.session with
  | none => s
  | some sess =>
    let r := (handle cfg env sess m).run s.db
    let t := r.trace.filter isStored
    ⟨replay s.db t, r.result.toOption, s.history ++ t⟩

/-- One message of a session. -/
def deliver (cfg : Config) (s : System) (d : Delivery) : System :=
  if d.fails then unstored cfg s d.env d.message else step cfg s (.handle d.env d.message)

/-- The value of a watched key is stored. -/
def Delivery.Stores (d : Delivery) (K : List GoString) : Prop :=
  d.fails = true → ∀ m, d.message = .fromAP (.set m) → m.key ∉ K

section Sessions

variable {cfg : Config} {s : System}

/-- Without a session no message is handled. -/
theorem run_of_departed (hs : s.session = none) (ds : List Delivery) :
    Runs.run (deliver cfg) s ds = s := by
  induction ds with
  | nil => rfl
  | cons d ds ih =>
    have hstep : deliver cfg s d = s := by simp only [deliver, unstored, step, hs, ite_self]
    rw [Runs.run_cons, hstep, ih]

/-- What the client hears of a message is right, if the keys that it watches are stored. -/
theorem coherent_deliver {rt : Interpreter} (hcfg : cfg.evaluate = rt.evaluate) {db : Savefile}
    {sess : Session} {K : List GoString} (hK : ∀ k ∈ K, k ∈ sess.watchedKeys ∧ k ≠ [])
    {d : Delivery} (hd : d.Stores K) :
    Coherent K db (if d.fails then
      ((handle cfg d.env sess d.message).run db).trace.filter isStored
      else ((handle cfg d.env sess d.message).run db).trace) := by
  obtain ⟨env, m, fails⟩ := d
  have hall : Coherent K db ((handle cfg env sess m).run db).trace := coherent_handle hcfg hK m
  cases fails with
  | false => exact hall
  | true =>
    have hsame (h : ∀ e ∈ ((handle cfg env sess m).run db).trace, isStored e = true) :
        Coherent K db (((handle cfg env sess m).run db).trace.filter isStored) := by
      rwa [List.filter_eq_self.mpr h]
    by_cases hm : m.isApart = true
    · refine hsame fun e he => ?_
      have hstorage := apart_handle cfg env sess hm db e he
      cases e with
      | io => rfl
      | commit c =>
        cases c with
        | setStoredData key value => cases hstorage
        | _ => rfl
    cases m with
    | fromMW m => exact absurd rfl hm
    | fromAP m =>
      cases m with
      | set m =>
        -- nothing is heard of a key that is not watched
        have hkey : m.key ∉ K := hd rfl m rfl
        refine coherent_of_aloof fun e he => ?_
        have he := List.mem_of_mem_filter he
        rw [run_handle_fromAP, handleAP, Proc.run_bind_pure] at he
        obtain rfl | he := List.mem_cons.mp he
        · trivial
        · exact (aloof_handleSet hkey db trivial).1 e he
      | get m =>
        refine hsame fun e he => ?_
        rw [run_handle_fromAP, handleAP, Proc.run_bind_pure, handleGet, Proc.run_read_bind,
          Proc.run_emit] at he
        obtain rfl | he := List.mem_cons.mp he
        · rfl
        · rw [List.mem_singleton.mp he]
          rfl
      | _ => exact absurd rfl hm

/-- In every session, whatever messages it handles, the client is told of each write to the
keys that it watches, with the right values before and after, and what it finds under them
otherwise is right. So it knows what is stored, as long as SQLite does store the values of
these keys: of one that is lost it is told all the same. -/
theorem watcher_knows {rt : Interpreter} (hcfg : cfg.evaluate = rt.evaluate) {sess : Session}
    (hs : s.session = some sess) {K : List GoString}
    (hK : ∀ k ∈ K, k ∈ sess.watchedKeys ∧ k ≠ []) {ds : List Delivery}
    (hds : ∀ d ∈ ds, d.Stores K) :
    ∃ t, (Runs.run (deliver cfg) s ds).history = s.history ++ t ∧
      Access.Consistent (s.db.valuesOf K) (heardIn K t) ∧
        (Runs.run (deliver cfg) s ds).db.valuesOf K =
          Access.replay (s.db.valuesOf K) (heardIn K t) := by
  suffices h : ∃ t, (Runs.run (deliver cfg) s ds).history = s.history ++ t ∧
      (Runs.run (deliver cfg) s ds).db = replay s.db t ∧ Coherent K s.db t by
    obtain ⟨t, hhistory, hdb, hcons, hvalues⟩ := h
    exact ⟨t, hhistory, hcons, hdb ▸ hvalues⟩
  induction ds generalizing s sess with
  | nil => exact ⟨[], (List.append_nil _).symm, rfl, coherent_nil⟩
  | cons d ds ih =>
    obtain ⟨hd, hds⟩ := List.forall_mem_cons.mp hds
    have hfirst : Coherent K s.db _ := coherent_deliver hcfg hK hd
    generalize ht : (if d.fails then
      ((handle cfg d.env sess d.message).run s.db).trace.filter isStored
      else ((handle cfg d.env sess d.message).run s.db).trace) = t₁ at hfirst
    have hstep : deliver cfg s d = ⟨replay s.db t₁,
        ((handle cfg d.env sess d.message).run s.db).result.toOption, s.history ++ t₁⟩ := by
      rw [← ht, deliver]
      split <;> simp only [unstored, step, hs]
    rw [Runs.run_cons, hstep]
    cases hr : ((handle cfg d.env sess d.message).run s.db).result with
    | error e =>
      rw [run_of_departed rfl]
      exact ⟨_, rfl, rfl, hfirst⟩
    | ok sess' =>
      have hwatches : sess.Watches sess' := watches_handle cfg d.env sess hr
      obtain ⟨t, hhistory, hdb, hrest⟩ := ih (s := ⟨_, some sess', _⟩) rfl
        (fun k hk => ⟨hwatches k (hK k hk).1, (hK k hk).2⟩) hds
      refine ⟨t₁ ++ t, ?_, ?_, hfirst.append hrest⟩
      · rw [← List.append_assoc]
        exact hhistory
      · rw [replay_append]
        exact hdb

end Sessions

def watchingConfig : Config := { sampleConfig with evaluate := sampleInterpreter.evaluate }

/-- A client that watches a key. -/
def watchKey : List Event :=
  [.connect, .handle (Env.inOrder false) (.fromAP (.setNotify [lit "k"]))]

/-- It does not ask for the replies to its `Set`s. Another key is not stored. -/
def setThenGet : List Delivery :=
  [⟨Env.inOrder false, .fromAP (.set ⟨lit "k", .null, false, [⟨lit "replace", .bool false⟩]⟩), false⟩,
    ⟨Env.inOrder false, .fromAP (.set ⟨lit "l", .null, false, [⟨lit "replace", .bool true⟩]⟩), true⟩,
    ⟨Env.inOrder true, .fromAP (.get ⟨[lit "k"], ∅⟩), false⟩]

theorem watcher_knows_sample : ∃ db t,
    createSavefile (Env.inOrder false) sampleResult [] = .ok db ∧
      Access.Consistent ((play watchingConfig db watchKey).db.valuesOf [lit "k"])
        (heardIn [lit "k"] t) ∧
      (Runs.run (deliver watchingConfig) (play watchingConfig db watchKey) setThenGet).db.valuesOf
        [lit "k"] = Access.replay ((play watchingConfig db watchKey).db.valuesOf [lit "k"])
          (heardIn [lit "k"] t) := by
  obtain ⟨db, h, hwatches⟩ := exists_created
    (x := createSavefile (Env.inOrder false) sampleResult [])
    (P := fun db => (play watchingConfig db watchKey).session.map Session.watchedKeys =
      some [lit "k"])
    (by decide +kernel)
  obtain ⟨sess, hs, hkeys⟩ := Option.map_eq_some_iff.mp hwatches
  have hcfg : watchingConfig.evaluate = sampleInterpreter.evaluate := rfl
  have hstores : ∀ d ∈ setThenGet, d.Stores [lit "k"] := by
    simp only [setThenGet, List.forall_mem_cons, Delivery.Stores]
    refine ⟨nofun, fun _ m hm => ?_, nofun, nofun⟩
    cases hm
    decide
  obtain ⟨t, -, hknows⟩ :=
    watcher_knows (K := [lit "k"]) hcfg hs (by rw [hkeys]; decide) hstores
  exact ⟨db, t, h, hknows⟩

end Isthmus
