import Fsync.Base.Operand
import Fsync.Client.Dispatch
import Fsync.Client.Paths

/-!
# The addresses of the two machines

`main` is handed `server_addr`, with a user before it or not.  It connects its socket
to the host of the address and pushes to `server_addr:server_fn`; the servers pull to
`user@client_hostname:client_fn`.

* `serverHostname_eq_iff`: when the socket goes to the host of the address;
* `operands_decode_iff`: when `rsync` reads the operands as they were meant, too.
-/

namespace Fsync.Client

open Posix Rsync

/-! ## The socket -/

/-- `PORT` -/
def port : ℕ := 34401

/-- "WITHOUT the username portion": `server_addr.split('@')[1]`, which is there. -/
def serverHostname (serverAddr : Str) : Str :=
  if '@' ∈ serverAddr then (serverAddr.splitOn '@')[1]?.getD [] else serverAddr

/-- `'tcp://%s:%s' % (hostname, PORT)` -/
def tcp (hostname : Str) : Str := "tcp://".toList ++ hostname ++ ':' :: (Nat.repr port).toList

/-- The host of an address: what follows its last `@`. -/
def hostPart (addr : Str) : Str := addr.rtakeWhile (· ≠ '@')

/-- An address has at most one `@`, or the same host behind its first and its last. -/
def OneHost (addr : Str) : Prop :=
  addr.count '@' ≤ 1 ∨ ∃ user host rest, '@' ∉ user ∧ '@' ∉ host ∧
    addr = user ++ '@' :: host ++ '@' :: rest ∧ '@' :: host <:+ '@' :: rest

theorem at_notMem_hostPart (addr : Str) : '@' ∉ hostPart addr := by
  intro h
  simpa using List.mem_rtakeWhile_imp h

theorem hostPart_of_notMem {addr : Str} (h : '@' ∉ addr) : hostPart addr = addr := by
  rw [hostPart, List.rtakeWhile_eq_self_iff]
  intro c hc
  simpa using ne_of_mem_of_not_mem hc h

/-- The host and the `@` before it end the address, with an `@` put before the address. -/
theorem hostPart_isSuffix (addr : Str) : '@' :: hostPart addr <:+ '@' :: addr := by
  have hsplit : addr.rdropWhile (· ≠ '@') ++ hostPart addr = addr :=
    List.rdropWhile_append_rtakeWhile
  by_cases hl : addr.rdropWhile (· ≠ '@') = []
  · rw [hl, List.nil_append] at hsplit
    rw [hsplit]
  · have hlast := List.rdropWhile_last_not _ _ hl
    have hat : (addr.rdropWhile (· ≠ '@')).getLast hl = '@' := by simpa using hlast
    rw [← List.dropLast_append_getLast hl, hat] at hsplit
    refine ⟨'@' :: (addr.rdropWhile (· ≠ '@')).dropLast, ?_⟩
    conv_rhs => rw [← hsplit]
    simp

/-- Nothing else with no `@` does. -/
theorem hostPart_eq_iff {addr host : Str} (h : '@' ∉ host) :
    hostPart addr = host ↔ '@' :: host <:+ '@' :: addr := by
  constructor
  · rintro rfl
    exact hostPart_isSuffix addr
  · intro hsuf
    rcases List.suffix_or_suffix_of_suffix hsuf (hostPart_isSuffix addr) with hs | hs
    · rcases List.suffix_cons_iff.1 hs with heq | hs
      · exact (List.cons.inj heq).2.symm
      · exact absurd (hs.subset List.mem_cons_self) (at_notMem_hostPart addr)
    · rcases List.suffix_cons_iff.1 hs with heq | hs
      · exact (List.cons.inj heq).2
      · exact absurd (hs.subset List.mem_cons_self) h

/-- What follows an `@` has the same host. -/
theorem hostPart_append (user rest : Str) : hostPart (user ++ '@' :: rest) = hostPart rest := by
  rw [hostPart_eq_iff (at_notMem_hostPart rest)]
  exact (hostPart_isSuffix rest).trans (List.suffix_append ('@' :: user) _)

/-- **The socket goes to the host of the address** exactly if that host follows the
first `@`, too. -/
theorem serverHostname_eq_iff (addr : Str) :
    serverHostname addr = hostPart addr ↔ OneHost addr := by
  by_cases hat : '@' ∈ addr
  · obtain ⟨user, rest, rfl, huser⟩ := List.eq_append_cons_of_mem hat
    have hsplit : (user ++ '@' :: rest).splitOn '@' = user :: rest.splitOn '@' :=
      List.splitOn_append_cons_self_of_not_mem huser rest
    rw [serverHostname, if_pos hat, hsplit, List.getElem?_cons_succ, hostPart_append, OneHost,
      List.count_append, List.count_cons_self, List.count_eq_zero.2 huser, Nat.zero_add]
    by_cases hrest : '@' ∈ rest
    · obtain ⟨host, rest, rfl, hhost⟩ := List.eq_append_cons_of_mem hrest
      have hsplit' : (host ++ '@' :: rest).splitOn '@' = host :: rest.splitOn '@' :=
        List.splitOn_append_cons_self_of_not_mem hhost rest
      have hcount : ¬ (host ++ '@' :: rest).count '@' + 1 ≤ 1 := by
        rw [List.count_append, List.count_cons_self]
        omega
      rw [hsplit', hostPart_append, or_iff_right hcount]
      constructor
      · intro h
        exact ⟨user, host, rest, huser, hhost, by simp, (hostPart_eq_iff hhost).1 h.symm⟩
      · rintro ⟨user', host', rest', huser', hhost', heq, hsuf⟩
        have hparts := congrArg (List.splitOn '@') heq
        rw [hsplit, hsplit', List.append_assoc, List.cons_append,
          List.splitOn_append_cons_self_of_not_mem huser' (host' ++ '@' :: rest'),
          List.splitOn_append_cons_self_of_not_mem hhost' rest'] at hparts
        obtain ⟨rfl, hbehind⟩ := List.cons.inj hparts
        obtain ⟨rfl, -⟩ := List.cons.inj hbehind
        obtain rfl : rest = rest' := by simpa using heq
        exact ((hostPart_eq_iff hhost).2 hsuf).symm
    · rw [List.splitOn_eq_singleton hrest, hostPart_of_notMem hrest, List.count_eq_zero.2 hrest]
      exact ⟨fun _ => Or.inl le_rfl, fun _ => rfl⟩
  · rw [serverHostname, if_neg hat, hostPart_of_notMem hat]
    exact ⟨fun _ => Or.inl (by rw [List.count_eq_zero.2 hat]; exact Nat.zero_le 1), fun _ => rfl⟩

/-! ## The operands -/

/-- `server_fn` for a host name of any form. -/
def serverFnFor (clientHostname : Str) (env : Env) (path : Str) (isDir : Bool) : Str :=
  join serverRootDir [clientHostname, normalizePath env path] ++ if isDir then ['/'] else []

theorem isabs_append {s : Str} (h : isabs s = true) (t : Str) : isabs (s ++ t) = true := by
  cases s with
  | nil => cases h
  | cons c s => exact h

theorem isabs_serverFnFor (clientHostname : Str) (env : Env) (path : Str) (isDir : Bool) :
    isabs (serverFnFor clientHostname env path isDir) = true :=
  isabs_append (isabs_join₂_of_isabs (isabs_join₂_of_isabs rfl)) _

theorem isabs_clientFn (env : Env) (path : Str) (isDir : Bool) :
    isabs (clientFn env path isDir) = true :=
  isabs_append (isabs_abspath env.names path) _

/-- Where a server pulls to for a run of `fs`. -/
def pullRoute (args : MainArgs) (env : Env) (user : Str) (isDir : Bool) : Route where
  serverFn := serverFnFor args.clientHostname env args.path isDir
  hostname := user ++ '@' :: args.clientHostname
  clientFn := clientFn env args.path isDir

/-- Each address of a run of `fs` is read as it was meant: by the push, by the socket
and by the pull.  `env` tells the working directory and the home directory. -/
structure Decodes (args : MainArgs) (env : Env) (user : Str) (isDir : Bool) : Prop where
  push : readOperand (args.serverAddr ++ ':' :: (pullRoute args env user isDir).serverFn) =
    .remote args.serverAddr (pullRoute args env user isDir).serverFn
  socket : tcp (serverHostname args.serverAddr) = tcp (hostPart args.serverAddr)
  pull : readOperand (pullRoute args env user isDir).destination =
    .remote (user ++ '@' :: args.clientHostname) (pullRoute args env user isDir).clientFn

theorem tcp_injective {h h' : Str} (heq : tcp h = tcp h') : h = h' := by
  unfold tcp at heq
  exact List.append_cancel_left (List.append_cancel_right heq)

/-- **The addresses are read as they were meant** exactly if both look like hosts and
the address of the server is one of a single host.  The colons of a bare IPv6 address
and a second `@` are not provided for. -/
theorem operands_decode_iff (args : MainArgs) (env : Env) (user : Str) (isDir : Bool) :
    Decodes args env user isDir ↔
      HostLike args.serverAddr ∧ OneHost args.serverAddr ∧
        HostLike (user ++ '@' :: args.clientHostname) := by
  have hpush := @readOperand_host_path_iff args.serverAddr _
    (isabs_serverFnFor args.clientHostname env args.path isDir)
  have hpull := @readOperand_host_path_iff (user ++ '@' :: args.clientHostname) _
    (isabs_clientFn env args.path isDir)
  constructor
  · intro h
    exact ⟨hpush.1 h.push, (serverHostname_eq_iff _).1 (tcp_injective h.socket), hpull.1 h.pull⟩
  · rintro ⟨hserver, hone, hclient⟩
    exact ⟨hpush.2 hserver, congrArg tcp ((serverHostname_eq_iff _).2 hone), hpull.2 hclient⟩

/-- Over `ssh` from an IPv6 address, and with a user in both variables. -/
theorem addresses_misread :
    (∃ args, dispatch ⟨none, none, some "fe80::1 50022 22".toList, none, none, none⟩ "h".toList
        "fs".toList ["a".toList] = .called args ∧ ¬ Decodes args ann "ann".toList false) ∧
    ∃ args, dispatch ⟨none, some "ann@w".toList, none, some "bob".toList, none, none⟩ "h".toList
        "fs".toList ["a".toList] = .called args ∧ ¬ Decodes args ann "ann".toList false := by
  refine ⟨⟨_, rfl, fun h => ?_⟩, _, rfl, fun h => ?_⟩
  · have hpush := h.push
    revert hpush
    decide
  · have hsocket := h.socket
    revert hsocket
    decide

end Fsync.Client
