import EmbeddedOS.FinalProject.Theorems.LotStep
import EmbeddedOS.FinalProject.Theorems.Occupancy
import EmbeddedOS.FinalProject.Theorems.Semaphores
import EmbeddedOS.FinalProject.Theorems.Cash
import EmbeddedOS.FinalProject.Theorems.Uniqueness
import EmbeddedOS.FinalProject.Theorems.History
import EmbeddedOS.FinalProject.Theorems.OwnCar
import EmbeddedOS.FinalProject.Theorems.IndexSafety
import EmbeddedOS.Library.Deferred
import EmbeddedOS.FinalProject.Theorems.Leds
import EmbeddedOS.FinalProject.Theorems.ExitPaid
import EmbeddedOS.HomeWork.Hw3.Order
import EmbeddedOS.HomeWork.Hw3.Platform
import EmbeddedOS.HomeWork.Hw3.Theorems.Backlog
import EmbeddedOS.HomeWork.Hw3.Theorems.Delivery
import EmbeddedOS.HomeWork.Hw3.Theorems.Moves
import EmbeddedOS.Lab.Lab7.Game
import EmbeddedOS.Lab.Lab7.Theorems.Bounds
import EmbeddedOS.Lab.Lab4.Mydev
import EmbeddedOS.Lab.Lab4.Theorems.Lossless
import EmbeddedOS.Lab.Lab6.Bank
import EmbeddedOS.Lab.Lab6.Client
import EmbeddedOS.Library.Decimal
import EmbeddedOS.Lab.Lab6.Theorems.Scan
import EmbeddedOS.Lab.Lab6.Theorems.Balance
import EmbeddedOS.Lab.Lab6.Theorems.Cuts
import EmbeddedOS.Lab.Lab6.Server
import EmbeddedOS.Lab.Lab6.Theorems.Handover
import EmbeddedOS.HomeWork.Hw2.Server
import EmbeddedOS.HomeWork.Hw2.Theorems.Isolation
import EmbeddedOS.HomeWork.Hw1.Driver
import EmbeddedOS.HomeWork.Hw1.Program
import EmbeddedOS.HomeWork.Hw1.Theorems.Message
import EmbeddedOS.HomeWork.Hw3.Command
import EmbeddedOS.HomeWork.Hw3.Theorems.Residue
import EmbeddedOS.HomeWork.Hw3.Ledger
import EmbeddedOS.HomeWork.Hw3.Theorems.Account
import EmbeddedOS.HomeWork.Hw3.Schedule
import EmbeddedOS.HomeWork.Hw3.Theorems.Schedule
import EmbeddedOS.HomeWork.Hw3.Theorems.Price
import EmbeddedOS.FinalProject.Visits
import EmbeddedOS.FinalProject.Theorems.Visits
import EmbeddedOS.FinalProject.Theorems.Billing
import EmbeddedOS.FinalProject.Theorems.BillStart
import EmbeddedOS.FinalProject.Theorems.BillTotal
import EmbeddedOS.FinalProject.Theorems.Alone
import EmbeddedOS.FinalProject.Theorems.Allocation
import EmbeddedOS.FinalProject.Theorems.ExitWindow
import EmbeddedOS.FinalProject.Client
import EmbeddedOS.FinalProject.Theorems.Replies
import EmbeddedOS.Library.Inevitable
import EmbeddedOS.FinalProject.Theorems.Dialogue
import EmbeddedOS.FinalProject.Wire
import EmbeddedOS.Library.Scan
import EmbeddedOS.FinalProject.Theorems.Malformed
import EmbeddedOS.FinalProject.Theorems.Camera
import EmbeddedOS.FinalProject.Startup
import EmbeddedOS.FinalProject.Theorems.Leftover
import EmbeddedOS.Lab.Lab7.Theorems.Search
import EmbeddedOS.Lab.Lab7.Theorems.Restart
import EmbeddedOS.Library.Bisection
import EmbeddedOS.Lab.Lab7.Theorems.Midpoint
import EmbeddedOS.Lab.Lab4.Theorems.Range
import EmbeddedOS.HomeWork.Hw1.Theorems.Lengths
import EmbeddedOS.Lab.Lab6.Theorems.Errors
import EmbeddedOS.HomeWork.Hw1.Board
import EmbeddedOS.HomeWork.Hw1.Theorems.Shown
import EmbeddedOS.HomeWork.Hw1.Init
import EmbeddedOS.HomeWork.Hw1.Theorems.Unwind
import EmbeddedOS.HomeWork.Hw2.Parser
import EmbeddedOS.HomeWork.Hw2.Theorems.Parser
import EmbeddedOS.HomeWork.Session
import EmbeddedOS.HomeWork.Hw1.Theorems.Bill
import EmbeddedOS.HomeWork.Theorems.Session
import EmbeddedOS.Lab.Lab7.Theorems.Midpoint
import EmbeddedOS.Library.Refinement
import EmbeddedOS.FinalProject.Operations
import EmbeddedOS.FinalProject.Theorems.Operations
import EmbeddedOS.FinalProject.Garage
import EmbeddedOS.FinalProject.Theorems.Garage
import EmbeddedOS.FinalProject.Theorems.Progress
import EmbeddedOS.Library.Process
import EmbeddedOS.Lab.Lab5.Trains
import EmbeddedOS.Lab.Lab5.Theorems.Station
import EmbeddedOS.FinalProject.Accept
import EmbeddedOS.FinalProject.Theorems.Accept
import EmbeddedOS.Library.Fifo
import EmbeddedOS.Lab.Lab4.Marquee
import EmbeddedOS.Lab.Lab4.Theorems.Marquee
import EmbeddedOS.HomeWork.Hw1.Session
import EmbeddedOS.HomeWork.Hw1.Theorems.Session
import EmbeddedOS.Library.SysV
import EmbeddedOS.Lab.Lab6.Startup
import EmbeddedOS.Lab.Lab6.Theorems.Startup
import EmbeddedOS.HomeWork.Hw3.Startup
import EmbeddedOS.HomeWork.Hw3.Theorems.Startup
import EmbeddedOS.HomeWork.Hw3.Host
import EmbeddedOS.HomeWork.Hw3.Theorems.Host
import EmbeddedOS.HomeWork.Hw1.Module
import EmbeddedOS.HomeWork.Hw1.Theorems.Module
import EmbeddedOS.Library.Lists
import EmbeddedOS.Library.Shm
import EmbeddedOS.FinalProject.Service
import EmbeddedOS.FinalProject.Shutdown
import EmbeddedOS.FinalProject.Theorems.Service
import EmbeddedOS.FinalProject.Theorems.Shutdown
