import Mathlib

namespace Skepticoin

def SASHIMI_PER_COIN : Nat := 100000000

def FIVE : Nat := 10 / 2

def DESIRED_BLOCK_TIMESPAN : Nat := 10 * 60 / FIVE
def BLOCKS_BETWEEN_TARGET_READJUSTMENT : Nat := 2016 * FIVE
def DESIRED_TARGET_READJUSTMENT_TIMESPAN : Nat :=
  BLOCKS_BETWEEN_TARGET_READJUSTMENT * DESIRED_BLOCK_TIMESPAN

def INITIAL_SUBSIDY : Nat := 50 * SASHIMI_PER_COIN / FIVE
def SUBSIDY_HALVING_INTERVAL : Nat := 210000 * FIVE

def MAX_BLOCK_SIZE : Nat := 1000000 / FIVE
def MAX_COINBASE_RANDOM_DATA_SIZE : Nat := 200

def MAX_SASHIMI : Nat := 2099999986350000

def MAX_FUTURE_BLOCK_TIME : Nat := 30

def CHAIN_SAMPLE_COUNT : Nat := 8
def CHAIN_SAMPLE_SIZE : Nat := 4
def CHAIN_SAMPLE_TOTAL_SIZE : Nat := CHAIN_SAMPLE_COUNT * CHAIN_SAMPLE_SIZE

-- skepticoin/networking/params.py
def MAX_MESSAGE_SIZE : Nat := 32 * 1024 * 1024

def MAX_IBD_PEERS : Nat := 1
def IBD_PEER_TIMEOUT : Nat := 60
def IBD_VALIDATION_SKIP : Nat := 10000

def GET_BLOCKS_INVENTORY_SIZE : Nat := 500

def SWITCH_TO_ACTIVE_MODE_TIMEOUT : Nat := 5 * 60
def EMPTY_INVENTORY_BACKOFF : Nat := 60

end Skepticoin
