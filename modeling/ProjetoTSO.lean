import ProjetoTSO.Codededup.Acknowledged
import ProjetoTSO.Codededup.Counts
import ProjetoTSO.Codededup.Initialised
import ProjetoTSO.Codededup.TicketWakeup
import ProjetoTSO.Codededup.Recycling
import ProjetoTSO.Syscounter.CountedCalls
import ProjetoTSO.Codededup.Rename
import ProjetoTSO.Codededup.Listing
import ProjetoTSO.Codededup.Transfers
import ProjetoTSO.Codededup.ReadBounds
import ProjetoTSO.Codededup.Deadlock
import ProjetoTSO.Skeleton.Agreement
import ProjetoTSO.Syscounter.Table
import ProjetoTSO.Codededup.Truncate
import ProjetoTSO.Codededup.Narrowing
import ProjetoTSO.Systracer.TraceBack
import ProjetoTSO.Systracer.Losses
import ProjetoTSO.Systracer.Hash
import ProjetoTSO.Systracer.Filter
import ProjetoTSO.Codededup.Splitting
import ProjetoTSO.Codededup.DeadEntries
import ProjetoTSO.Codededup.Exact
import ProjetoTSO.Codededup.Readers
import ProjetoTSO.Codededup.Serial
import ProjetoTSO.Codededup.Returning
